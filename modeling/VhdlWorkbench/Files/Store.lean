import VhdlWorkbench.Fault
import VhdlWorkbench.Files.Path
import VhdlWorkbench.Text.Lines

/-!
The files below the working folder, and the resources of the editor.
-/

namespace VhdlWorkbench.Files

structure File where
  text : String
  changed : Int := 1000
deriving DecidableEq, Repr

/-- The working folder as paths from the root write it. -/
def workingFolder : String :=
  "$CWD"

/-- The files below the working folder by their normal paths. -/
structure Store where
  files : List (String × File) := []
deriving DecidableEq, Repr

namespace Store

/-- A path relative to the working folder, in normal form. -/
def locate (path : String) : String :=
  let path := normalize path
  if path == workingFolder then "."
  else if Text.startsWith path (workingFolder ++ "/") then
    String.ofList (path.toList.drop (workingFolder.length + 1))
  else path

def find? (s : Store) (path : String) : Option File :=
  if path.isEmpty || Text.endsWith path "/" then none else s.files.lookup (locate path)

def isFolder (s : Store) (path : String) : Bool :=
  !path.isEmpty &&
    (locate path == "." || s.files.any fun (name, _) => Text.startsWith name (locate path ++ "/"))

def write (s : Store) (path : String) (file : File) : Store :=
  let path := locate path
  if s.files.any (·.1 == path) then
    { s with files := s.files.map fun entry => if entry.1 == path then (path, file) else entry }
  else { s with files := s.files ++ [(path, file)] }

def open_ (s : Store) (path : String) : Except Fault File :=
  match s.find? path with
  | some file => .ok file
  | none => .error (if s.isFolder path then .isFolder else .noFile)

def readRaw (s : Store) (path : String) : Except Fault String :=
  (s.open_ path).map (·.text)

/-- The text of a file with one line feed for every line end. -/
def read (s : Store) (path : String) : Except Fault String :=
  (s.open_ path).map fun file => String.ofList (Text.normalizeLineEnds file.text.toList)

end Store

structure Resources where
  entries : List (String × Option String) := []
  store : Store := {}

namespace Resources

def named (r : Resources) (name : String) : List String :=
  (r.entries.filter fun (path, _) => baseName path == name).map (·.1)

/-- The text of the first resource at a path that has one. -/
def load? (r : Resources) (path : String) : Option String :=
  r.entries.findSome? fun (p, text) => if p == path then text else none

end Resources

end VhdlWorkbench.Files
