import VhdlWorkbench.Declaration.Forms
import VhdlWorkbench.Declaration.Read
import VhdlWorkbench.Source.Comment

/-!
The interface of an entity or a component: its generics and its ports.
-/

namespace VhdlWorkbench.Design

open Pattern Pattern.Node Declaration

structure Interface where
  name : String
  /-- The word that introduces the unit, as it is written. -/
  kind : String
  generics : List Declaration := []
  ports : List Declaration := []
deriving DecidableEq, Repr

def interfaceForm (unit : String) : Node :=
  named "type" (choice [lit "entity", lit "component"]) ++ gap1 ++ named "name" (nameOrAny unit) ++
    gap1 ++ lit "is" ++ gap1 ++
    Node.optional (captured (lit "generic" ++ gap ++ lit "(" ++ named "generic" (few .any) ++
      lit ")" ++ gap ++ lit ";" ++ gap)) ++
    Node.optional (captured (lit "port" ++ gap ++ lit "(" ++ named "port" (few .any) ++
      lit ")" ++ gap ++ lit ";")) ++
    gap ++ named "ending" (lit "end" ++ edge ++ few .any) ++ lit ";"

/-- The declarations of one clause; a clause that is absent or empty has none. -/
def clause (form : Node) (content : Option String) : Except Fault (List Declaration) :=
  match nonempty? content with
  | none => .ok []
  | some content => allOfForm lineOptions form (content ++ ";")

def interface? (source unit : String) : Except Fault (Option Interface) := do
  let r ← orFault (Regex.build blockOptions (interfaceForm unit))
  match r.search? (Source.withoutComments source) with
  | none => return none
  | some m =>
    let generics ← clause (genericForm identifierList) (m.named? "generic")
    let ports ← clause (portForm identifierList) (m.named? "port")
    return some { name := m.named "name", kind := m.named "type", generics, ports }

end VhdlWorkbench.Design
