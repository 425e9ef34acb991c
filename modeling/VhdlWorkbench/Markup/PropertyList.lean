import VhdlWorkbench.Json.Reader
import VhdlWorkbench.Markup.Basic
import VhdlWorkbench.Number.Reading
import VhdlWorkbench.Pattern.Regex
import VhdlWorkbench.Text.Segment

/-!
Property lists: markup documents that hold one value. Elements of other names are looked through.
-/

namespace VhdlWorkbench.Markup

open Pattern Pattern.Node

/-- A container that is open: a dictionary with the key of the value that is open in it, or an array. -/
inductive Container where
  | dictionary (members : List (String × Json)) (slot : Option String)
  | array (items : List Json)

structure ListState where
  /-- The open containers, the innermost first. -/
  open_ : List Container := []
  /-- The key that waits for its value. -/
  key : Option String := none
  /-- The text since the last element began, in reversed pieces. -/
  pieces : List String := []
  root : Option Json := none

namespace ListState

/-- Makes room for a value: gives the state in which the value is open. -/
def makeRoom (s : ListState) : Except Fault ListState :=
  match s.key, s.open_ with
  | some _, [] => .error .noElement
  | some key, .dictionary members _ :: rest =>
    .ok { s with key := none, open_ := .dictionary members (some key) :: rest }
  | some _, .array _ :: _ => .error .badValue
  | none, [] => .ok s
  | none, .array _ :: _ => .ok s
  | none, .dictionary _ _ :: _ => .error .badValue

def put (s : ListState) (value : Json) : ListState :=
  match s.open_ with
  | [] => { s with root := some value }
  | .array items :: rest => { s with open_ := .array (value :: items) :: rest }
  | .dictionary members (some key) :: rest =>
    { s with open_ := .dictionary (Table.put members key value) none :: rest }
  | .dictionary _ none :: _ => s

def add (s : ListState) (value : Json) : Except Fault ListState :=
  s.makeRoom.map (·.put value)

def text (s : ListState) : String :=
  String.join s.pieces.reverse

def close (s : ListState) : ListState :=
  match s.open_ with
  | [] => s
  | .array items :: rest => put { s with open_ := rest } (.list items.reverse)
  | .dictionary members _ :: rest => put { s with open_ := rest } (.object members)

end ListState

def integerValue (s : String) : Except Fault Json :=
  let value :=
    match s.toList with
    | '0' :: x :: rest =>
      if x == 'x' || x == 'X' then (Number.parseHex? (String.ofList rest)).map fun n => (n : Int)
      else Text.integer? s
    | _ => Text.integer? s
  match value with
  | some n => .ok (.int n)
  | none => .error .badValue

def ListState.step (s : ListState) : Event → Except Fault ListState
  | .text piece => .ok { s with pieces := piece :: s.pieces }
  | .opening name => do
    let s := { s with pieces := [] }
    match name with
    | "dict" =>
      let s ← s.makeRoom
      return { s with open_ := .dictionary [] none :: s.open_ }
    | "array" =>
      let s ← s.makeRoom
      return { s with open_ := .array [] :: s.open_ }
    | _ => return s
  | .closing name =>
    let taken := { s with pieces := [] }
    match name with
    | "dict" =>
      match s.key with
      | some key => if key.isEmpty then .ok s.close else .error .badValue
      | none => .ok s.close
    | "array" => .ok s.close
    | "key" =>
      match s.key, s.open_ with
      | some key, frames =>
        if !key.isEmpty then .error .badValue
        else match frames with
          | [] => .error .noElement
          | .array _ :: _ => .error .badValue
          | .dictionary _ _ :: _ => .ok { taken with key := some s.text }
      | none, [] => .error .noElement
      | none, .array _ :: _ => .error .badValue
      | none, .dictionary _ _ :: _ => .ok { taken with key := some s.text }
    | "string" => taken.add (.text s.text)
    | "integer" => do taken.add (← integerValue s.text)
    | "real" =>
      match Number.parseDecimal? s.text, Number.parseFloat? s.text with
      | some d, _ => taken.add (.decimal d)
      | none, some x => taken.add (.nonfinite x)
      | none, none => .error .badValue
    | "true" => s.add (.bool true)
    | "false" => s.add (.bool false)
    | _ => .ok s

/-- A comment, with the blanks around it at the start of the text. -/
def commentForm : Regex :=
  let anything := Node.few (.set false [.category false .space, .category true .space])
  Regex.ofNode { ascii := true }
    (choice
      [start ++ gap ++ lit "<!--" ++ anything ++ lit "-->" ++ gap,
       lit "<!--" ++ anything ++ lit "-->"])

def looksLikeList (s : String) : Bool :=
  let s := if Text.startsWith s "\uFEFF" then String.ofList (s.toList.drop 1) else s
  Text.startsWith s "<?xml" || Text.startsWith s "<plist"

/-- The value of a property list, if it has one; its comments are removed first. -/
def readList (document : String) : Except Fault (Option Json) := do
  let document := commentForm.replace "" document
  if !looksLikeList document then throw .notPropertyList
  let (events, fault) := events document
  let s ← events.foldlM ListState.step {}
  match fault with
  | some f => throw f
  | none => return s.root

end VhdlWorkbench.Markup
