import VhdlWorkbench.Editor.Workspace

/-!
The files that may hold units, kept by project.
-/

namespace VhdlWorkbench.Instantiate

open Editor Editor.Act

/-- The order of paths below a folder, given by their parts: the files of a folder come before its
folders, and each in the order of their names. -/
def comesBefore : List String → List String → Bool
  | [], _ => true
  | _ :: _, [] => false
  | [x], [y] => x ≤ y
  | [_], _ :: _ :: _ => true
  | _ :: _ :: _, [_] => false
  | x :: xs, y :: ys => if x == y then comesBefore xs ys else x ≤ y

/-- The path below a folder that a path has, both relative to the working folder. -/
def below? (folder path : String) : Option String :=
  if folder == "." then some path
  else if Text.startsWith path (folder ++ "/") then
    some (String.ofList (path.toList.drop (folder.length + 1)))
  else none

def filesBelow (store : Files.Store) (folder : String) : List (String × Files.File) :=
  if folder.isEmpty then []
  else
    let found := store.files.filterMap fun (path, file) =>
      (below? (Files.Store.locate folder) path).map fun rest => (Text.splitOn rest '/', file)
    (found.mergeSort fun x y => comesBefore x.1 y.1).map fun (parts, file) =>
      (Files.join folder (Text.join "/" parts), file)

def mayHoldUnit (path : String) (file : Files.File) : Bool :=
  [".vhd", ".vho", ".vhdl"].any (Text.endsWith (Text.toLower (Files.baseName path))) &&
    (Text.contains file.text "entity" || Text.contains file.text "component")

def unitFilesBelow (store : Files.Store) (folders : List String) : List String :=
  folders.flatMap fun folder =>
    ((filesBelow store folder).filter fun (path, file) => mayHoldUnit path file).map (·.1)

def updateUnitFiles (project : Option String) : Act Unit := do
  let w ← get
  status "List of module files updated"
  modify fun w' => { w' with
    unitFiles := Table.put w'.unitFiles project (unitFilesBelow w.store w.folders) }

def unitFilesOf (project : Option String) : Act (List String) := do
  return ((← get).unitFiles.lookup project).getD []

end VhdlWorkbench.Instantiate
