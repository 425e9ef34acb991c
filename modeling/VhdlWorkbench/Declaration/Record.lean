import VhdlWorkbench.Declaration.Basic
import VhdlWorkbench.Pattern.Regex

/-!
The fields of a record type, read from the text of its declaration in one line.
-/

namespace VhdlWorkbench.Declaration

open Pattern Pattern.Node

def recordBody : Regex :=
  Regex.ofNode {}
    (edge ++ lit "record" ++ gap1 ++ captured (few .any) ++ edge ++ lit "end")

def recordField : Regex :=
  Regex.ofNode { multiline := true }
    (named "name" identifier ++ gap ++ lit ":" ++ gap ++ named "type" (many1 (.set true [.char ';'])) ++
      lit ";" ++ gap ++
      Node.optional (captured (lit "--" ++ named "comment" (few .any ++ lit "\n"))))

def recordFields (text : String) : List Declaration :=
  match recordBody.search? text with
  | none => []
  | some m =>
    (recordField.matches_ (m.group 1)).map fun f =>
      { text := some f.text
        type := f.named? "type"
        name := f.named "name"
        tag := "field"
        comment := some (f.named? "comment") }

end VhdlWorkbench.Declaration
