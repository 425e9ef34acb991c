import VhdlWorkbench.Layout.Row

/-!
Alignment of port and generic maps, with a line for every binding.
-/

namespace VhdlWorkbench.Layout

open Pattern Pattern.Node

def nextBinding : Regex :=
  Regex.ofNode {} (lit "," ++ spacing ++ captured identifier)

def bindingRow : Node :=
  start ++ gap ++
    named "port" (identifier ++
      Node.optional (.group (gap ++ lit "(" ++ .one .any ++ maybe (.char '/') ++ lit ")"))) ++
    gap ++ lit "=>" ++ named "bind" (few .any) ++ named "sep" (maybe (.char ',')) ++
    Node.optional (named "comment" (spacing ++ lit "--" ++ many .any)) ++ stop

/-- A line of a map: a binding in its columns, or another line without the blanks around it. -/
def renderBinding (level : Int) (portWidth bindWidth : Nat) (line : String) : String :=
  tabs level ++
    match (Regex.ofNode {} bindingRow).matchStart? line with
    | none => Text.trim line
    | some m =>
      let comment := m.named "comment"
      Text.padRight portWidth (Text.trim (m.named "port")) ++ " => " ++
        Text.padRight bindWidth (Text.trim (m.named "bind")) ++
        (if (m.named "sep").isEmpty then " " else ",") ++
        (if comment.isEmpty then "" else " " ++ Text.trim comment)

def alignBinding (text : String) (level : Int) : String :=
  let text := nextBinding.replaceBy (fun m => ",\n" ++ m.group 1) (Text.trim text)
  let rows := (Regex.ofNode { multiline := true } bindingRow).matches_ text
  let portWidth := columnWidth rows "port"
  let bindWidth := columnWidth rows "bind"
  String.join ((Text.lines text).map fun line =>
    renderBinding level portWidth bindWidth line ++ "\n")

end VhdlWorkbench.Layout
