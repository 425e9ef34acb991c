import VhdlWorkbench.Inspect.SourceFile

/-!
Looking up a symbol of the index: in the file of the buffer first and then in every file of the index.
-/

namespace VhdlWorkbench.Inspect

open Editor Editor.Act

/-- Where a symbol was looked for last, and the match that confirms it. -/
structure SymbolPlace where
  file : String := ""
  row : Int := -1
  col : Int := -1
  found : Option Pattern.Match := none

def searchFiles (r : Except Fault Pattern.Regex) : List IndexEntry → SymbolPlace → Act SymbolPlace
  | [], place => return place
  | entry :: rest, place => do
    let file ← platformForm entry.file
    let text ← sourceText file
    match (← lift r).search? text with
    | some m => return { file, row := entry.row, col := entry.col, found := some m }
    | none => searchFiles r rest { place with file }

def lookupSymbol (id : Nat) (name : String) (r : Except Fault Pattern.Regex) : Act SymbolPlace := do
  let current := (← buffer id).file
  let entries ← symbolEntries name
  let platform := (← get).platform
  let place ← match entries.find? fun e => some (Files.platformForm platform e.file) == current with
    | none => pure {}
    | some entry => do
      let text ← contents id
      let found := (← lift r).search? text
      pure { file := entry.file, row := entry.row, col := entry.col, found : SymbolPlace }
  match place.found with
  | some _ => return place
  | none => searchFiles r entries place

def unitHeader (name : String) : Except Fault Pattern.Regex :=
  open Pattern Pattern.Node in
  orFault (Regex.build { ignoreCase := true, dotAll := true, multiline := true }
    (named "type" (lit "entity") ++ gap1 ++ named "name" (.pasted name) ++ gap1 ++ lit "is"))

def unitBlock (name : String) : Except Fault Pattern.Regex :=
  open Pattern Pattern.Node in
  orFault (Regex.build { ignoreCase := true, dotAll := true, multiline := true }
    (named "type" (choice [lit "component", lit "entity"]) ++ gap1 ++
      named "name" (.pasted name) ++ gap1 ++ lit "is" ++ gap1 ++ named "content" (few .any) ++
      edge ++ lit "end" ++ gap1 ++ captured (choice [.ref 1, .ref 2])))

end VhdlWorkbench.Inspect
