import VhdlWorkbench.Hierarchy.Show
import VhdlWorkbench.Instantiate.UnitFiles

/-!
The places of the project where a unit is instantiated.
-/

namespace VhdlWorkbench.Hierarchy

open Editor Editor.Act

def instanceForm (unit : String) : Except Fault Pattern.Regex :=
  open Pattern Pattern.Node in
  orFault (Regex.build { ignoreCase := true, dotAll := true, multiline := true }
    (start ++ gap ++ captured identifier ++ gap ++ lit ":" ++ gap ++
      Node.optional (.group (lit "use" ++ gap1)) ++ Node.optional (.group (lit "entity" ++ gap1)) ++
      Node.optional (captured (identifier ++ lit ".")) ++ .pasted unit ++
      Node.optional (captured (gap ++ lit "(" ++ gap ++ identifier ++ gap ++ lit ")")) ++ gap1 ++
      captured (choice [lit "port", lit "generic"])))

structure Occurrence where
  label : String
  line : Nat
deriving DecidableEq, Repr

def lineNumber (text : Array Char) (p : Nat) : Nat :=
  (text.extract 0 (p + 1)).toList.count '\n' + 1

/-- The instance that a match stands for; a match of a unit with alternatives may lack the label. -/
def Occurrence.ofMatch (m : Pattern.Match) : Except Fault Occurrence :=
  match m.group? 1 with
  | some label => .ok { label := Text.trim label, line := lineNumber m.source m.start }
  | none => .error .noMember

def occurrences (r : Pattern.Regex) (unit text : String) : Except Fault (List Occurrence) :=
  if Text.contains text unit then (r.matches_ text).mapM Occurrence.ofMatch else .ok []

def occurrencesIn (r : Pattern.Regex) (unit : String) :
    List String → Act (List (String × List Occurrence))
  | [] => return []
  | file :: rest => do
    let found ← lift (occurrences r unit (← Inspect.sourceText file))
    let others ← occurrencesIn r unit rest
    return if found.isEmpty then others else (file, found) :: others

def occurrenceReport (unit : String) (found : List (String × List Occurrence)) : String :=
  let count := (found.map (·.2.length)).foldl (· + ·) 0
  unit ++ ": " ++ toString count ++ " instances.\n\n" ++
    String.join (found.map fun (file, list) =>
      file ++ ":\n" ++
        String.join (list.map fun o => "    - " ++ o.label ++ " (line: " ++ toString o.line ++ ")\n") ++
        "\n")

def mergeFiles (found : List (String × List Occurrence)) : List (String × List Occurrence) :=
  found.foldl (fun table (file, list) => Table.put table file ((table.lookup file).getD [] ++ list)) []

def findInstances (id : Nat) : Act Unit := do
  let unit ← Inspect.unitName id
  status "Find Instance can take some time, please wait ..."
  let project := (← get).project
  if ((← get).unitFiles.lookup project).isNone then Instantiate.updateUnitFiles project
  let r ← lift (instanceForm unit)
  let found := mergeFiles (← occurrencesIn r unit (← Instantiate.unitFilesOf project))
  if found.isEmpty then status "[VHDL] No instance found !"
  else
    let view ← newFile
    setName view (unit ++ " Instances")
    setSyntax view resultSyntax
    setSetting view "result_file_regex" (.text "^(.+):$")
    setSetting view "result_line_regex" (.text "\\(line: (\\d+)\\)$")
    setScratch view
    insertSnippet view (occurrenceReport unit found)

end VhdlWorkbench.Hierarchy
