import VhdlWorkbench.Layout.Row

/-!
Alignment of the declarations of signals, variables and constants.
-/

namespace VhdlWorkbench.Layout

open Pattern Pattern.Node

def objectRow : Node :=
  start ++ spacing ++ named "qual" identifier ++ spacing ++ named "name" nameList ++ spacing ++
    lit ":" ++ spacing ++ named "type" identifier ++ spacing ++ rangePart ++ initialPart ++ spacing ++
    lit ";" ++ spacing ++
    Node.optional (.group (lit "--" ++ named "comment" (many commentChar))) ++ stop

structure ObjectColumns where
  qualifier : Nat
  name : Nat
  type : Nat
  range : Nat
  initial : Nat
deriving DecidableEq, Repr

def objectColumns (rows : List Match) : ObjectColumns where
  qualifier := columnWidth rows "qual"
  name := columnWidth rows "name"
  type := columnWidth rows "type"
  range := columnWidth rows "range"
  initial := initialWidth rows "init_val"

/-- A declaration in its columns; another line stays as it is. -/
def renderObject (level : Int) (w : ObjectColumns) (line : String) : String :=
  match (Regex.ofNode oneRow objectRow).matchStart? line with
  | none => line
  | some m =>
    let comment := m.named "comment"
    tabs level ++ Text.padRight w.qualifier (m.named "qual") ++ " " ++
      Text.padRight w.name (Text.trim (m.named "name")) ++ " : " ++
      Text.padRight w.type (m.named "type") ++ rangeColumn w.range (m.named "range") ++
      initialColumn w.initial (part? m "init_val") ++ ";" ++
      (if comment.isEmpty then "" else " --" ++ Text.trimRight comment)

def alignObjects (text : String) (level : Int) : String :=
  let w := objectColumns ((Regex.ofNode blockRows objectRow).matches_ text)
  Text.join "\n" ((Text.lines (Text.trim text)).map (renderObject level w))

end VhdlWorkbench.Layout
