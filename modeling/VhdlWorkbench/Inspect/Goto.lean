import VhdlWorkbench.Editor.Workspace

/-!
Going to a symbol of the index, or to an occurrence of a name in a text.
-/

namespace VhdlWorkbench.Inspect

open Editor Editor.Act

def encodedPlace (file : String) (row col : Int) : String :=
  file ++ ":" ++ toString row ++ ":" ++ toString col

/-- Opens the file of a symbol: the view, and the file's name if it had to be opened. -/
def gotoIndexSymbol (id : Nat) (name : String) : Act (Option (Nat × String)) := do
  let _ ← buffer id
  match ← symbolEntries name with
  | [] => return none
  | entry :: _ =>
    match ← viewOf? (← platformForm entry.file) with
    | some view =>
      focus view
      return some (view, "")
    | none =>
      focus id
      let view ← openFile (encodedPlace entry.file entry.row entry.col) true
      focus view
      return some (view, entry.file)

def gotoSymbolInFile (id : Nat) (name file : String) : Act Unit := do
  let b ← buffer id
  let platform := (← get).platform
  match (← symbolEntries name).find? fun e => Files.platformForm platform e.file == file with
  | none => return
  | some entry =>
    focus id
    if b.file == some file then moveCursor id (b.textPoint (entry.row - 1) (entry.col - 1))
    else
      let _ ← openFile (encodedPlace file entry.row entry.col) true

def occurrence (ignoreCase : Bool) (name : String) : Except Fault Pattern.Regex :=
  open Pattern Pattern.Node in
  orFault (Regex.build { ignoreCase, multiline := true } (edge ++ .pasted name ++ edge))

/-- The first occurrence behind a region that is not in a comment, or the last one if the text ends with
it; nothing if there is no occurrence left. -/
def seekCode (id : Nat) (name : String) (size : Nat) : Nat → Region → Act (Option Region)
  | 0, r => return some r
  | fuel + 1, r => do
    if size ≤ r.b then return some r
    let found ← find id (← lift (occurrence false name)) r.b
    if found.isEmpty then return none
    if Text.contains (← scopeAt id found.a) "comment" then seekCode id name size fuel found
    else return some found

def gotoFirst (id : Nat) (name : String) : Act Unit := do
  let size := (← buffer id).size
  match ← seekCode id name size (size + 1) (.point 0) with
  | none => return
  | some r =>
    focus id
    moveCursor id r.a

/-- Goes on from a region to an occurrence of a name with the scope of a definition. -/
def seekDefinition (id : Nat) (name : String) (debug : Bool) (size : Nat) : Nat → Region → Act Unit
  | 0, _ => return
  | fuel + 1, r => do
    if size ≤ r.b then return
    let scope ← scopeAt id r.a
    if debug then print ("[move_to_def] Scope = " ++ scope ++ " @ " ++ r.report)
    if Text.contains scope "definition" then moveCursor id r.a
    else
      let found ← find id (← lift (occurrence true name)) r.b
      if found.a == r.a || found.a < 0 then
        if debug then print ("[move_to_def] Aborting search, new region = " ++ scope ++ " ")
      else seekDefinition id name debug size fuel found

def moveToDefinition (id : Nat) (name : String) (debug : Bool) : Act Unit := do
  focus id
  let b ← buffer id
  let r ← match b.selection with
    | r :: _ => pure r
    | [] => do find id (← lift (occurrence false name)) 0
  if debug then
    print ("[move_to_def] Region = " ++ r.report ++ " (nbSel = " ++ toString b.selection.length ++
      ") / Max = " ++ toString b.size)
  seekDefinition id name debug b.size (b.size + 3) r

end VhdlWorkbench.Inspect
