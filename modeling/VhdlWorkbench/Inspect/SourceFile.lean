import VhdlWorkbench.Declaration.Lookup
import VhdlWorkbench.Editor.Workspace

/-!
What source files declare; answers are kept by file, name and time of change.
-/

namespace VhdlWorkbench.Inspect

open Editor Editor.Act

def changedAt (file : String) : Act Int := do
  let store := (← get).store
  match store.find? file with
  | some f => return f.changed
  | none => if store.isFolder file then return 0 else throw .noFile

def sourceText (file : String) : Act String := do
  lift ((← get).store.read file)

def declarationKey (file name : String) (kinds : Int) : Act (String × String × Int × Int) := do
  return (file, name, ← changedAt file, kinds)

def declarationInFile (file name : String) (kinds : Int) : Act Declaration := do
  let key ← declarationKey file name kinds
  let d ← match (← get).caches.declarations.find? key with
    | some d => pure d
    | none => do lift (Declaration.lookup (← sourceText file) name kinds)
  modify fun w =>
    { w with caches := { w.caches with declarations := w.caches.declarations.put key d } }
  return d

/-- Notes where a declaration in a file is, and gives the declaration with its place. -/
def noteLocation (file name : String) (kinds : Int) (d : Declaration) (l : Location) :
    Act Declaration := do
  let key ← declarationKey file name kinds
  let d := { d with location := some l }
  modify fun w =>
    { w with caches :=
      { w.caches with declarations := w.caches.declarations.change key fun _ => d } }
  return d

def instancesInFile (file unit : String) : Act (Option (List Design.Instance)) := do
  let key := (file, unit, ← changedAt file)
  let found ← match (← get).caches.instances.find? key with
    | some found => pure found
    | none => do lift (Design.instances? (← sourceText file) unit)
  modify fun w => { w with caches := { w.caches with instances := w.caches.instances.put key found } }
  return found

def interfaceInFile (file unit : String) : Act (Option Design.Interface) := do
  let key := (file, unit, ← changedAt file)
  let found ← match (← get).caches.interfaces.find? key with
    | some found => pure found
    | none => do lift (Design.interface? (← sourceText file) unit)
  modify fun w =>
    { w with caches := { w.caches with interfaces := w.caches.interfaces.put key found } }
  return found

end VhdlWorkbench.Inspect
