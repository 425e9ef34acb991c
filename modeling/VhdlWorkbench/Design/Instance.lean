import VhdlWorkbench.Declaration.Forms
import VhdlWorkbench.Fault
import VhdlWorkbench.Source.Comment

/-!
The instances of an architecture: first those that name an entity, then those that name a component, in source order.
-/

namespace VhdlWorkbench.Design

open Pattern Pattern.Node Declaration

/-- An instance: its label and the unit that it instantiates. -/
structure Instance where
  label : String
  unit : String
deriving DecidableEq, Repr

def subprogramBody : Regex :=
  Regex.ofNode { ignoreCase := true, dotAll := true }
    (captured (choice [lit "function", lit "procedure"]) ++ gap1 ++ captured identifier ++ few .any ++
      edge ++ lit "end" ++
      oneOf [gap1 ++ .ref 1 ++ edge, gap1 ++ .ref 2 ++ edge, gap ++ lit ";"])

def architectureBody (unit : String) : Node :=
  start ++ gap ++ lit "architecture" ++ gap1 ++ captured identifier ++ gap1 ++ lit "of" ++ gap1 ++
    nameOrAny unit ++ gap1 ++ lit "is" ++ few .any ++ lit "end" ++
    oneOf [gap1 ++ lit "architecture" ++ edge, gap1 ++ .ref 1 ++ edge, gap ++ lit ";"]

def libraryName : Node :=
  Node.optional (.group (identifier ++ lit "."))

def entityInstance : Regex :=
  Regex.ofNode blockOptions
    (start ++ gap ++ captured identifier ++ gap ++ lit ":" ++ gap ++ lit "entity" ++ gap1 ++
      libraryName ++ captured identifier ++ edge)

def componentInstance : Regex :=
  Regex.ofNode blockOptions
    (start ++ gap ++ captured identifier ++ gap ++ lit ":" ++ gap ++ libraryName ++
      captured identifier ++ gap1 ++ oneOf [lit "generic", lit "port"] ++ gap1 ++ lit "map" ++ edge)

def instances? (source unit : String) : Except Fault (Option (List Instance)) := do
  let source := subprogramBody.replace "" (Source.withoutComments source)
  let r ← orFault (Regex.build blockOptions (architectureBody unit))
  return (r.search? source).map fun m =>
    (entityInstance.matches_ m.text ++ componentInstance.matches_ m.text).map fun i =>
      { label := i.group 1, unit := i.group 2 }

end VhdlWorkbench.Design
