import VhdlWorkbench.Pattern.Regex
import VhdlWorkbench.Text.Segment

/-!
Paths of files, with slashes, and on some platforms with drive letters and backslashes as well.
-/

namespace VhdlWorkbench.Files

open Pattern Pattern.Node

inductive Platform where
  | linux
  | osx
  | windows
deriving DecidableEq, Repr

/-- One part of a path put behind those read so far, which are reversed: `..` takes the last part
away if that is possible. -/
def pushPart (rooted : Bool) (parts : List String) (part : String) : List String :=
  if part.isEmpty || part == "." then parts
  else if part != ".." then part :: parts
  else match parts with
    | [] => if rooted then [] else [part]
    | last :: rest => if last == ".." then part :: parts else rest

/-- The slashes that a path begins with: two are kept, more are one. -/
def rootOf (path : String) : String :=
  let slashes := (path.toList.takeWhile (· == '/')).length
  if slashes = 0 then "" else if slashes = 2 then "//" else "/"

def normalize (path : String) : String :=
  let root := rootOf path
  let parts := (Text.splitOn path '/').foldl (pushPart (!root.isEmpty)) []
  let path := root ++ Text.join "/" parts.reverse
  if path.isEmpty then "." else path

/-- A path inside a folder; a path from the root stands for itself. -/
def join (folder path : String) : String :=
  if Text.startsWith path "/" then path
  else if folder.isEmpty || Text.endsWith folder "/" then folder ++ path
  else folder ++ "/" ++ path

def baseName (path : String) : String :=
  match Text.findLast? path "/" with
  | none => path
  | some n => String.ofList (path.toList.drop (n + 1))

/-- The offset of the dot of the extension: the last dot of the last part, if something other than dots
stands before it there. -/
def extensionDot? (path : String) : Option Nat :=
  let nameStart := match Text.findLast? path "/" with
    | none => 0
    | some n => n + 1
  match Text.findLast? path "." with
  | none => none
  | some dot =>
    if dot < nameStart then none
    else if (((path.toList.take dot).drop nameStart).any (· != '.')) then some dot else none

def withoutExtension (path : String) : String :=
  match extensionDot? path with
  | none => path
  | some dot => String.ofList (path.toList.take dot)

def driveLetter : Single :=
  .set false [.range 'A' 'Z', .range 'a' 'z']

/-- A drive letter between slashes, with the rest of the line. -/
def slashedDrive : Regex :=
  Regex.ofNode {} (lit "/" ++ captured (.one driveLetter) ++ lit "/" ++ captured (many1 .any))

def platformForm (platform : Platform) (path : String) : String :=
  match platform with
  | .windows =>
    Text.replaceChar (slashedDrive.replaceBy (fun m => m.group 1 ++ ":/" ++ m.group 2) path) '/' "\\"
  | _ => path

/-- A drive letter with a colon at the start, with the rest of the line. -/
def leadingDrive : Regex :=
  Regex.ofNode {}
    (start ++ captured (.one driveLetter) ++ lit ":" ++
      .one (.set false [.char '/', .char '\\']) ++ captured (many .any))

def resourceForm (platform : Platform) (path : String) : String :=
  let path :=
    match platform, leadingDrive.matchStart? path with
    | .windows, some m => m.group 1 ++ "/" ++ m.group 2
    | _, _ => path
  Text.replaceChar path '\\' "/"

def packageFile (path : String) : String :=
  join "data" (normalize path)

end VhdlWorkbench.Files
