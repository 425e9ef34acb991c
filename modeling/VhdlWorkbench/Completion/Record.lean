import VhdlWorkbench.Declaration.Record

/-!
Proposals to complete a name: the fields of a record.
-/

namespace VhdlWorkbench.Completion

open Pattern Pattern.Node

/-- A proposal: what is shown, and what is inserted. -/
structure Proposal where
  shown : String
  inserted : String
deriving DecidableEq, Repr

def bracketed : Regex :=
  Regex.ofNode {} (lit "[" ++ many .any ++ lit "]")

/-- The proposal of a field: its name, with its type and what the declaration has in brackets. -/
def ofField (f : Declaration) : Proposal :=
  let range := ((bracketed.search? (f.text.getD "")).map (·.text)).getD ""
  { shown := f.name ++ "\t" ++ f.type.getD "" ++ range, inserted := f.name }

def ofRecord (text : String) : List Proposal :=
  (Declaration.recordFields text).map ofField

end VhdlWorkbench.Completion
