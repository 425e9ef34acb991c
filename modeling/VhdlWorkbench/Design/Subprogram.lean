import VhdlWorkbench.Declaration.Forms
import VhdlWorkbench.Declaration.Read

/-!
Functions, procedures and processes of a source without comments; a name counts once.
-/

namespace VhdlWorkbench.Design

open Pattern Pattern.Node Declaration

structure Subprogram where
  name : String
  arguments : List Declaration := []
deriving DecidableEq, Repr

def headerOptions : Options :=
  { ignoreCase := true, dotAll := true }

def functionHeader : Regex :=
  Regex.ofNode headerOptions
    (named "type" (lit "function") ++ gap1 ++ named "name" identifier ++ gap ++ lit "(" ++
      named "args" (few .any) ++ lit ")" ++ gap ++ lit "return" ++ named "ret" (few .any) ++ edge ++
      named "term" (lit "is"))

def procedureHeader : Regex :=
  Regex.ofNode headerOptions
    (named "type" (lit "procedure") ++ gap1 ++ named "name" identifier ++ gap ++ lit "(" ++
      named "args" (few .any) ++ lit ")" ++ gap ++ named "term" (choice [lit "is", lit ";"]))

def processHeader : Regex :=
  Regex.ofNode headerOptions
    (named "name" identifier ++ gap ++ lit ":" ++ gap ++ named "type" (lit "process"))

/-- Adds the subprograms of the headers whose names are new; `tail` is put behind the arguments. -/
def addSubprograms (tail : String) (known : List Subprogram) :
    List Match → Except Fault (List Subprogram)
  | [] => .ok known
  | m :: rest =>
    let name := m.named "name"
    if known.any (·.name == name) then addSubprograms tail known rest
    else
      match allOfForm blockOptions argumentForm (m.named "args" ++ tail) with
      | .error e => .error e
      | .ok arguments => addSubprograms tail (known ++ [{ name, arguments }]) rest

def functions (source : String) : Except Fault (List Subprogram) :=
  addSubprograms "" [] (functionHeader.matches_ source)

def procedures (source : String) : Except Fault (List Subprogram) :=
  addSubprograms ";" [] (procedureHeader.matches_ source)

def processes (source : String) : List String :=
  (processHeader.matches_ source).map (·.named "name")

end VhdlWorkbench.Design
