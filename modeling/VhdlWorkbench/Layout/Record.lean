import VhdlWorkbench.Layout.Entity

/-!
Alignment of record types.
-/

namespace VhdlWorkbench.Layout

open Pattern Pattern.Node

def recordBlock : Regex :=
  Regex.ofNode blockRows
    (start ++ spacing ++ lit "type" ++ gap1 ++ named "name" identifier ++ gap1 ++ lit "is" ++ gap1 ++
      lit "record" ++ named "content" (few .any) ++ lit "end" ++ gap1 ++ lit "record" ++ gap ++
      lit ";")

def fieldRow : Node :=
  start ++ spacing ++ named "name" identifier ++ spacing ++ lit ":" ++ spacing ++
    named "type" (.run (.set true [.char ';']) 1 none .lazy) ++ lit ";" ++
    Node.optional (.group (spacing ++ lit "--" ++ named "comment" (many commentChar)))

def renderField (level : Int) (nameWidth typeWidth : Nat) (m : Match) : String :=
  let comment := m.named "comment"
  tabs (level + 1) ++ Text.padRight nameWidth (m.named "name") ++ " : " ++
    Text.padRight typeWidth (m.named "type") ++ ";" ++
    (if comment.isEmpty then "" else " --" ++ Text.trimRight comment)

/-- A comment line: behind the columns if it is indented deeper than the fields, and at the
indentation of the fields otherwise. -/
def renderFieldComment (indent : Indentation) (level : Int) (column : Nat) (m : Match) :
    Except Fault String := do
  let depth ← indent.level (m.named "space")
  return tabs (level + 1) ++ Text.spaces (if level + 1 < depth then column else 0) ++ Text.trim m.text

/-- The first record type of a text, aligned; a text without one stays as it is. -/
def alignRecord (indent : Indentation) (text : String) (level : Int) : Except Fault String := do
  match recordBlock.search? text with
  | none => return text
  | some m =>
    let content := m.named "content"
    let rows := (Regex.ofNode blockRows fieldRow).matches_ (Source.withoutComments content)
    let nameWidth := columnWidth rows "name"
    let typeWidth := columnWidth rows "type"
    let lines ← renderLines (Regex.ofNode oneRow fieldRow) (renderField level nameWidth typeWidth)
      (renderFieldComment indent level (nameWidth + typeWidth)) (Text.lines (Text.trim content))
    return tabs level ++ "type " ++ m.named "name" ++ " is record\n" ++ unlines lines ++ tabs level ++
      "end record;"

end VhdlWorkbench.Layout
