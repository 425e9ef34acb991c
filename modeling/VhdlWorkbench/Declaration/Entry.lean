import VhdlWorkbench.Declaration.Basic
import VhdlWorkbench.Fault
import VhdlWorkbench.Json.Basic
import VhdlWorkbench.Text.Quoted
import VhdlWorkbench.Text.Segment

/-!
Entries: what a command is told about a declaration. Asking for a field that is not there is a fault.
-/

namespace VhdlWorkbench

inductive Field where
  | absent
  | null
  | text (s : String)
deriving DecidableEq, Repr

namespace Field

def ofOption : Option String → Field
  | none => .null
  | some s => .text s

def ofMember (members : List (String × Json)) (key : String) : Field :=
  match members.lookup key with
  | none => .absent
  | some (.text s) => .text s
  | some _ => .null

def read (key : String) : Field → Except Fault (Option String)
  | .absent => .error (.noEntry (Text.quoted key))
  | .null => .ok none
  | .text s => .ok (some s)

/-- The text of a field that has to be there and to be a text. -/
def demand (key : String) : Field → Except Fault String
  | .absent => .error (.noEntry (Text.quoted key))
  | .null => .error .wrongKind
  | .text s => .ok s

def text? : Field → Option String
  | .text s => some s
  | _ => none

end Field

structure Entry where
  text : Field := .absent
  type : Field := .absent
  name : Field := .absent
  tag : Field := .absent
  value : Field := .absent
  direction : Field := .absent
  location : Option Location := none
deriving DecidableEq, Repr

/-- The place that a list of file, row and column names. -/
def Location.ofJson? : Json → Option Location
  | .list [.text file, .int row, .int col] => some ⟨file, row, col⟩
  | _ => none

def Entry.ofMembers (members : List (String × Json)) : Entry where
  text := .ofMember members "decl"
  type := .ofMember members "type"
  name := .ofMember members "name"
  tag := .ofMember members "tag"
  value := .ofMember members "value"
  direction := .ofMember members "dir"
  location := (members.lookup "fname").bind Location.ofJson?

def Json.ofOption : Option String → Json
  | none => .null
  | some s => .text s

namespace Declaration

def toEntry (d : Declaration) : Entry where
  text := .ofOption d.text
  type := .ofOption d.type
  name := .text d.name
  tag := .text d.tag
  value := .ofOption d.value
  direction := match d.direction with
    | none => .absent
    | some s => .text s
  location := d.location

def toJson (d : Declaration) : Json :=
  .object ([("decl", Json.ofOption d.text), ("type", Json.ofOption d.type), ("name", .text d.name),
      ("tag", .text d.tag), ("value", Json.ofOption d.value)] ++
    (d.direction.map fun s => ("dir", .text s)).toList ++
    (d.comment.map fun c => ("comment", Json.ofOption c)).toList ++
    (d.location.map fun l => ("fname", .list [.text l.file, .int l.row, .int l.col])).toList)

def reportOption : Option String → String
  | none => "None"
  | some s => Text.quoted s

def report (d : Declaration) : String :=
  let fields :=
    [("decl", reportOption d.text), ("type", reportOption d.type), ("name", Text.quoted d.name),
      ("tag", Text.quoted d.tag), ("value", reportOption d.value)] ++
    (d.direction.map fun s => ("dir", Text.quoted s)).toList ++
    (d.comment.map fun c => ("comment", reportOption c)).toList ++
    (d.location.map fun l =>
      ("fname", "(" ++ Text.quoted l.file ++ ", " ++ toString l.row ++ ", " ++ toString l.col ++ ")")).toList
  "\x7b" ++ Text.join ", " (fields.map fun (key, value) => Text.quoted key ++ ": " ++ value) ++ "\x7d"

end Declaration

end VhdlWorkbench
