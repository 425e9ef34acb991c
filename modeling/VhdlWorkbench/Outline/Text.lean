import VhdlWorkbench.Declaration.Entry
import VhdlWorkbench.Design.Instance
import VhdlWorkbench.Editor.Buffer
import VhdlWorkbench.Text.Lowercase

/-!
The text of an outline: what a unit has, each kind under a heading.
-/

namespace VhdlWorkbench.Outline

structure Content where
  ports : List Entry := []
  constants : List Entry := []
  signals : List Entry := []
  aliases : List Entry := []
  instances : List Design.Instance := []
  procedures : List (String × List Entry) := []
  functions : List (String × List Entry) := []
  processes : List String := []

/-- How an outline is shown: which kinds, and which types have nothing below them. -/
structure Options where
  settings : List (String × Json) := []
  leaves : List String := []

def Options.shows (o : Options) (key : String) : Except Fault Bool :=
  match o.settings.lookup key with
  | some value => .ok value.isTrue
  | none => .error (.noEntry (Text.quoted key))

def directionSign (e : Entry) : Except Fault String :=
  if (e.tag.text?.map Text.toLower) == some "constant" then .ok " =>"
  else
    match e.direction.text? with
    | none | some "" => .ok " ->"
    | some direction =>
      match Text.toLower direction with
      | "in" => .ok " ->"
      | "out" => .ok "<- "
      | "inout" => .ok "<->"
      | _ => .error .unset

def indent (level : Int) : String :=
  Text.times level.toNat "  "

def fieldText (key : String) (f : Field) : Except Fault String := do
  return (← f.read key).getD "None"

def nameColumn (width : Nat) (e : Entry) : Except Fault String := do
  return Text.padRight width (← e.name.demand "name")

/-- The rows of entries at a level; a row is made of the name column and what a function adds to it. -/
def rows (level : Int) (entries : List Entry) (row : Entry → String → Except Fault String)
    (sign : Entry → Except Fault String) : Except Fault String := do
  let names ← entries.mapM fun e => e.name.demand "name"
  let width := (names.map String.length).foldl max 0
  let lines ← entries.mapM fun e => do
    let sign ← sign e
    return indent level ++ "* " ++ sign ++ (← row e (← nameColumn width e)) ++ "\n"
  return String.join lines

def noSign (_ : Entry) : Except Fault String :=
  .ok ""

def withSign (e : Entry) : Except Fault String := do
  return (← directionSign e) ++ " "

def typeRow (e : Entry) (name : String) : Except Fault String := do
  return name ++ " : " ++ (← fieldText "type" e.type)

def valueRow (e : Entry) (name : String) : Except Fault String := do
  return (← typeRow e name) ++ " := " ++ (← fieldText "value" e.value)

def aliasRow (e : Entry) (name : String) : Except Fault String := do
  match e.type with
  | .absent | .text "alias" => return name ++ " : " ++ (← fieldText "value" e.value)
  | _ => valueRow e name

/-- A section of entries at the top level, if there are any and they are to be shown. -/
def section_ (o : Options) (level : Int) (key heading : String) (entries : List Entry)
    (body : Except Fault String) : Except Fault String := do
  if entries.isEmpty then return ""
  if !(← o.shows key) || level != 1 then return ""
  return heading ++ ":\n" ++ (← body)

def instanceLine (o : Options) (level : Int) (i : Design.Instance) : String :=
  indent level ++ (if o.leaves.contains i.unit then Editor.Buffer.leafMark.toString else "") ++
    i.label ++ " (" ++ i.unit ++ ")\n"

/-- The instances, under a heading if other kinds have headings too, and the level of what follows. -/
def instanceLines (o : Options) (level : Int) (instances : List Design.Instance) :
    Except Fault (String × Int) := do
  if instances.isEmpty then return ("", level)
  let hasHeading ←
    if level != 1 then pure false
    else do
      if ← o.shows "show_port" then pure true else o.shows "show_signal"
  let inner := if hasHeading then level else level - 1
  let heading := if hasHeading then indent (level - 1) ++ "Instances:\n" else ""
  return (heading ++ String.join (instances.map (instanceLine o inner)), inner)

def subprogramLines (heading : String) (level : Int) (list : List (String × List Entry)) :
    Except Fault String := do
  if list.isEmpty then return ""
  let parts ← list.mapM fun (name, arguments) => do
    return indent level ++ name ++ "\n" ++ (← rows (level + 1) arguments typeRow withSign)
  return indent (level - 1) ++ heading ++ ":\n" ++ String.join parts

def processLines (o : Options) (level : Int) (list : List String) : Except Fault String := do
  if list.isEmpty then return ""
  if !(← o.shows "show_process") then return ""
  return indent (level - 1) ++ "Process:\n" ++
    String.join (list.map fun name => indent level ++ "* " ++ name ++ "\n")

def Content.text (c : Content) (o : Options) (level : Int) : Except Fault String := do
  let ports ← section_ o level "show_port" "Ports" c.ports (rows level c.ports typeRow withSign)
  let constants ← section_ o level "show_const" "Constants" c.constants
    (rows level c.constants valueRow noSign)
  let signals ← section_ o level "show_signal" "Signals" c.signals
    (rows level c.signals typeRow noSign)
  let aliases ← section_ o level "show_alias" "Alias" c.aliases
    (rows level c.aliases aliasRow noSign)
  let (instances, level) ← instanceLines o level c.instances
  let procedures ← subprogramLines "Procedures" level c.procedures
  let functions ← subprogramLines "Functions" level c.functions
  let processes ← processLines o level c.processes
  return ports ++ constants ++ signals ++ aliases ++ instances ++ procedures ++ functions ++ processes

end VhdlWorkbench.Outline
