import VhdlWorkbench.Inspect.Goto
import VhdlWorkbench.Inspect.TypeInfo
import VhdlWorkbench.Outline.Panel

/-!
A double click in the outline: goes to what the word stands for.
-/

namespace VhdlWorkbench.Outline

open Editor Editor.Act Inspect

/-- The word in the outline that a place belongs to, if the place is deep enough: the word before the
lines around it, or the one before the lines around that if it is a heading. -/
def owner (view : Nat) (p : Int) : Act String := do
  let b ← buffer view
  if (← lift (b.indentation p)) ≤ 1 then return ""
  let above ← previous view (← lift (b.indentedRegion p)).a [.wordStart]
  let above ←
    if Text.contains (← scopeAt view above) "keyword" then do
      previous view (← lift (b.indentedRegion above)).a [.wordStart]
    else pure above
  textOf view (b.word (.point above))

def reportEntries (entries : List IndexEntry) : String :=
  "[" ++ Text.join ", " (entries.map fun e =>
    "[" ++ Text.quoted e.file ++ ", " ++ Text.quoted e.display ++ ", [" ++ toString e.row ++ ", " ++
      toString e.col ++ "]]") ++ "]"

def isDoubleClick (name : String) (args : Json) : Except Fault Bool :=
  if name != "drag_select" then .ok false
  else
    match args with
    | .object members => .ok (members.lookup "by" == some (.text "words"))
    | .list items => if items.contains (.text "by") then .error .wrongKind else .ok false
    | .text s => if Text.contains s "by" then .error .wrongKind else .ok false
    | _ => .error .wrongKind

def withoutMark (s : String) : String :=
  match s.toList with
  | c :: rest => if c == Buffer.leafMark then String.ofList rest else s
  | [] => s

def gotoType (view subject : Nat) (name : String) : Act Unit := do
  match ← lookupType view name 2 with
  | none => return
  | some d =>
    match d.location with
    | none => return
    | some l =>
      focus subject
      let _ ← openFile (encodedPlace l.file l.row l.col) true

/-- Goes to a method: in the file of the type that it belongs to, or in the outlined text. -/
def gotoMethod (view subject : Nat) (debug : Bool) (p : Int) (name : String) : Act Unit := do
  let type ← owner view p
  if debug then print ("[NavBar: DoubleClick] class name = " ++ type)
  if type.isEmpty then moveToDefinition subject name debug
  else
    let entries ← symbolEntries type
    if debug then print ("[NavBar: DoubleClick] filelist = " ++ reportEntries entries)
    match entries with
    | [] => return
    | entry :: _ => gotoSymbolInFile subject name (← platformForm entry.file)

/-- Goes to a name: in the file of the type that it belongs to, or in the outlined text. -/
def gotoName (view subject : Nat) (p : Int) (name : String) : Act Unit := do
  let type ← owner view p
  if type.isEmpty then gotoFirst subject name
  else if type == "function" || type == "task" then return
  else
    match ← gotoIndexSymbol subject type with
    | none => return
    | some (found, file) =>
      if file.isEmpty then gotoFirst found name
      else modify fun w => { w with pending := Table.put w.pending file (.showName found name) }

/-- Goes to what the word at the cursor of an outline stands for, on a double click. -/
def click (view : Nat) (name : String) (args : Json) : Act Unit := do
  if !(← lift (isDoubleClick name args)) then return
  let b ← buffer view
  let r ← lift b.cursor
  let scope ← scopeAt view r.a
  let region := b.word r
  let word := withoutMark (← textOf view region)
  let (subject, _) ← lift ((← current).demandSubject)
  let debug := (← buffer subject).flag "vhdl.debug" false
  if debug then
    print ("[NavBar: DoubleClick] s = " ++ r.report ++ ", r=" ++ region.report ++ " scope=\"" ++ scope ++
      "\"")
  if Text.contains scope "userdefined" then gotoType view subject word
  else if Text.contains scope "entity.name.method" then gotoMethod view subject debug r.a word
  else gotoName view subject r.a word

end VhdlWorkbench.Outline
