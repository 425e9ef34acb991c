/-!
Declarations; a name that was looked up without success gives one without text and type.
-/

namespace VhdlWorkbench

/-- A place in a file: row and column as the index of symbols counts them. -/
structure Location where
  file : String
  row : Int
  col : Int
deriving DecidableEq, Repr

structure Declaration where
  /-- The declaration's text, or nothing when the name was not found. -/
  text : Option String := none
  type : Option String := none
  name : String := ""
  /-- What kind of thing is declared. -/
  tag : String := ""
  /-- The initial value; empty when the declaration could have one and has none. -/
  value : Option String := none
  direction : Option String := none
  /-- The comment of a record field, for declarations that are record fields. -/
  comment : Option (Option String) := none
  /-- Where the declaration was found, once it is known. -/
  location : Option Location := none
deriving DecidableEq, Repr

def Declaration.notFound (name : String) : Declaration :=
  { name := name }

end VhdlWorkbench
