import VhdlWorkbench.Instantiate.Insert
import VhdlWorkbench.Instantiate.UnitFiles

/-!
Choosing what to instantiate: a file, a unit of the file, and values for its generics.
-/

namespace VhdlWorkbench.Instantiate

open Editor Editor.Act

def insertUnit (id : Nat) (file : String) (i : Design.Interface)
    (values : List (String × Option String)) : Act Unit := do
  note (.buffer id) "vhdl_do_module_inst" (.object [("args", requestJson i values file)])
  insertInstance id (.ofInterface i values)

def askFor (generic : Declaration) : Act Unit := do
  let initial := match generic.value with
    | some value => if value.isEmpty then "" else "Default: " ++ value
    | none => ""
  let caption := generic.name ++ " (" ++ generic.type.getD "None" ++ ")"
  emit (.inputPanel caption initial)
  let panel ← newPanel "" initial
  changeBuffer panel fun b => { b with selection := [b.lineAt 0] }

/-- Parses the interface of a unit and instantiates it, after questions for its generics if the buffer
wants them. -/
def instantiateUnit (id : Nat) (file unit : String) : Act Unit := do
  match ← Inspect.interfaceInFile file unit with
  | none => return
  | some i =>
    let b ← buffer id
    let explicit := b.flag "vhdl.generic_explicit" false
    let asSnippet := b.flag "vhdl.instance_as_snippet" false
    match i.generics with
    | first :: _ =>
      if b.flag "vhdl.generic_fill" false && !asSnippet then
        modify fun w => { w with prompt := some { view := id, file, interface := i, explicit } }
        askFor first
      else
        insertUnit id file i (if asSnippet then i.generics.map fun g => (g.name, g.value) else [])
    | [] => insertUnit id file i []

/-- Takes the answer to the question for a generic. An answer that stands for the default gives a value
only if defaults are written out. -/
def takeAnswer (p : Prompt) (content : String) : Except Fault Prompt := do
  let isDefault := Text.startsWith content "Default"
  if isDefault && !p.explicit then return { p with asked := p.asked + 1 }
  match p.interface.generics[p.asked]? with
  | none => throw .noElement
  | some generic =>
    let value := if isDefault then String.ofList (content.toList.drop 9) else content
    return { p with values := p.values ++ [(generic.name, some value)], asked := p.asked + 1 }

/-- Goes on with the answer to the question for a generic: to the next question or to the instance. -/
def enter (content : String) : Act Unit := do
  match (← get).prompt with
  | none => throw .noPanel
  | some p =>
    let p ← lift (takeAnswer p content)
    modify fun w => { w with prompt := some p }
    match p.interface.generics[p.asked]? with
    | some generic => askFor generic
    | none => insertUnit p.view p.file p.interface p.values

def offerFiles (id : Nat) (list : Option String) : Act Unit := do
  emit (.quickPanel (← unitFilesOf list))
  modify fun w => { w with choice := some (.ofFile id list) }

def openFilesKey : Option String :=
  some "__NONE__"

/-- The key of the list that is offered while the project's own is brought up to date. -/
def copyKey : Option String :=
  some "__COPY__"

def absolute (path : String) : String :=
  Files.normalize (Files.join Files.workingFolder path)

/-- Offers files with units: those of the project, or those that are open if it has no folders. -/
def chooseFile (id : Nat) : Act Unit := do
  let b ← buffer id
  let isInstance ← match b.selection with
    | r :: _ => do pure (Text.contains (← scopeAt id r.a) "meta.module.inst")
    | [] => pure false
  if isInstance then note (.buffer id) "vhdl_module_reconnect" .null
  else
    let w ← get
    let put (key : Option String) (files : List String) : Act Unit :=
      modify fun w => { w with unitFiles := Table.put w.unitFiles key files }
    if w.folders.isEmpty then
      let files := (w.buffers.filter fun b => !b.isPanel).filterMap fun b =>
        b.file.bind fun file => if file.isEmpty then none else some (absolute file)
      put openFilesKey files
      offerFiles id openFilesKey
    else match w.unitFiles.lookup w.project with
      | none =>
        updateUnitFiles w.project
        offerFiles id w.project
        status "Please wait while module list is being built"
      | some files =>
        put copyKey files
        updateUnitFiles w.project
        offerFiles id copyKey

def entityHeader : Pattern.Regex :=
  open Pattern Pattern.Node in
  Regex.ofNode { multiline := true }
    (start ++ gap ++ lit "entity" ++ gap1 ++ captured identifier ++ gap1 ++ lit "is")

def chooseUnit (id : Nat) (file unit : String) : Act Unit := do
  note (.buffer id) "vhdl_do_module_parse"
    (.object [("args", .object [("fname", .text file), ("mname", .text unit)])])
  instantiateUnit id file unit

def chooseFrom (id : Nat) (file : String) : Act Unit := do
  match (← get).store.read file with
  | .error .noFile =>
    print ("[Smart VHDL] File " ++ file ++ " not found for module instantiation")
  | .error fault => throw fault
  | .ok text =>
    let units := (entityHeader.matches_ text).map (·.group 1)
    if units.length < 2 then chooseUnit id file Pattern.Node.anyName
    else
      emit (.quickPanel units)
      modify fun w => { w with choice := some (.ofUnit id file units) }

/-- Goes on with the choice from a list; a negative number means that nothing is chosen. -/
def pick (index : Int) : Act Unit := do
  match (← get).choice with
  | none => throw .noPanel
  | some choice =>
    if index < 0 then return
    match choice with
    | .ofFile id list =>
      match (← unitFilesOf list)[index.toNat]? with
      | some file => chooseFrom id file
      | none => throw .noElement
    | .ofUnit id file units =>
      match units[index.toNat]? with
      | some unit => chooseUnit id file unit
      | none => throw .noElement

end VhdlWorkbench.Instantiate
