import VhdlWorkbench.Layout.Row
import VhdlWorkbench.Source.Comment

/-!
Alignment of entities and components; a line of a clause that is neither a declaration nor a comment is copied.
-/

namespace VhdlWorkbench.Layout

open Pattern Pattern.Node

def entityBlock : Regex :=
  Regex.ofNode blockRows
    (named "type" (choice [lit "entity", lit "component"]) ++ gap1 ++ named "name" identifier ++ gap1 ++
      Node.optional (named "is" (lit "is" ++ gap1)) ++
      Node.optional (captured (lit "generic" ++ gap ++ lit "(" ++ named "generic" (few .any) ++
        lit ")" ++ gap ++ lit ";" ++ gap)) ++
      captured (lit "port" ++ gap ++ lit "(" ++ named "port" (few .any) ++ lit ")" ++ gap ++
        lit ";") ++ gap ++
      named "ending" (lit "end" ++ edge ++ Node.optional (captured (gap1 ++ .ref 1)) ++
        Node.optional (captured (gap1 ++ .ref 2))) ++ gap ++ lit ";")

def genericRow : Node :=
  start ++ spacing ++ named "name" identifier ++ spacing ++ lit ":" ++ spacing ++
    named "type" identifier ++ edge ++ spacing ++ rangePart ++
    .group (spacing ++ lit ":=" ++ spacing ++ named "init" (few .any)) ++ spacing ++
    Node.optional (named "end" (lit ";")) ++ spacing ++
    Node.optional (.group (lit "--" ++ spacing ++ named "comment" (many commentChar))) ++ stop

def portRow : Node :=
  start ++ spacing ++ named "name" nameList ++ spacing ++ lit ":" ++ spacing ++
    named "dir" (choice [lit "in", lit "out", lit "inout"]) ++ spacing1 ++
    named "type" identifier ++ spacing ++ rangePart ++ initialPart ++ spacing ++
    Node.optional (named "end" (lit ";")) ++ spacing ++
    Node.optional (.group (lit "--" ++ named "comment" (.run commentChar 0 none .lazy))) ++ stop

structure ClauseColumns where
  name : Nat
  direction : Nat := 0
  type : Nat
  range : Nat
  initial : Nat
deriving DecidableEq, Repr

/-- The columns of the rows of a clause; the range column has room for the space before a range
word. -/
def clauseColumns (rows : List Match) (initial : String) : ClauseColumns where
  name := columnWidth rows "name"
  direction := columnWidth rows "dir"
  type := columnWidth rows "type"
  range :=
    columnWidth rows "range" + (if rows.any fun r => hasRangeWord (r.named "range") then 1 else 0)
  initial := initialWidth rows initial

/-- The mark that ends a declaration, or a space in its place. -/
def endMark (m : Match) : String :=
  if (m.named "end").isEmpty then " " else ";"

def renderGeneric (level : Int) (w : ClauseColumns) (m : Match) : String :=
  let range := m.named "range"
  let rangeText :=
    if w.range = 0 then ""
    else if range.isEmpty then Text.spaces w.range
    else (if hasRangeWord range then " " else "") ++ Text.padRight (w.range - 1) range
  let comment := m.named "comment"
  tabs (level + 2) ++ Text.padRight w.name (m.named "name") ++ " : " ++
    Text.padRight w.type (m.named "type") ++ rangeText ++ initialColumn w.initial (part? m "init") ++
    endMark m ++ (if comment.isEmpty then "" else " -- " ++ Text.trim comment)

def renderPort (level : Int) (w : ClauseColumns) (m : Match) : String :=
  let comment := m.named "comment"
  tabs (level + 2) ++ Text.padRight w.name (Text.trim (m.named "name")) ++ " : " ++
    Text.padRight w.direction (m.named "dir") ++ " " ++ Text.padRight w.type (m.named "type") ++
    rangeColumn w.range (m.named "range") ++
    initialColumn w.initial ((part? m "init_val").map Text.trim) ++ endMark m ++
    (if comment.isEmpty then "" else " --" ++ Text.trimRight comment)

/-- A comment line of the generic clause: it stands behind as many tabs as the comment column has
characters. -/
def renderGenericComment (indent : Indentation) (w : ClauseColumns) (m : Match) :
    Except Fault String := do
  let _ ← indent.level (m.named "space")
  return tabs (w.name + 1 + w.type + w.range + w.initial : Nat) ++ Text.trim m.text

/-- A comment line of the port clause: at the comment column if it is indented deeper than the ports,
and at the indentation of the ports otherwise. -/
def renderPortComment (indent : Indentation) (level : Int) (w : ClauseColumns) (m : Match) :
    Except Fault String := do
  let depth ← indent.level (m.named "space")
  let column := w.name + w.type + w.range + w.initial + w.direction + 6
  return tabs (level + 2) ++ Text.spaces (if level + 2 < depth then column else 0) ++ Text.trim m.text

/-- The lines of a clause, each laid out by the first of the two forms that it has. -/
def renderLines (row : Regex) (renderRow : Match → String)
    (renderComment : Match → Except Fault String) (lines : List String) :
    Except Fault (List String) :=
  lines.mapM fun line =>
    match row.matchStart? line with
    | some m => .ok (renderRow m)
    | none =>
      match commentLine.matchStart? line with
      | some m => renderComment m
      | none => .ok line

def unlines (lines : List String) : String :=
  String.join (lines.map (· ++ "\n"))

def alignGenerics (indent : Indentation) (level : Int) (content : String) : Except Fault String := do
  let rows := (Regex.ofNode blockRows genericRow).matches_ (Source.withoutComments content)
  let w := clauseColumns rows "init"
  let lines ← renderLines (Regex.ofNode oneRow genericRow) (renderGeneric level w)
    (renderGenericComment indent w) (Text.lines (Text.trim content))
  return tabs (level + 1) ++ "generic (\n" ++ unlines lines ++ tabs (level + 1) ++ ");\n"

def alignPorts (indent : Indentation) (level : Int) (content : String) : Except Fault String := do
  let rows := (Regex.ofNode blockRows portRow).matches_ (Source.withoutComments content)
  let w := clauseColumns rows "init_val"
  let lines ← renderLines (Regex.ofNode oneRow portRow) (renderPort level w)
    (renderPortComment indent level w) (Text.lines (Text.trim content))
  return tabs (level + 1) ++ "port (\n" ++ unlines lines ++ tabs (level + 1) ++ ");\n"

/-- The first entity or component of a text, aligned; a text without one stays as it is. -/
def alignEntity (indent : Indentation) (text : String) (level : Int) : Except Fault String := do
  match entityBlock.search? text with
  | none => return text
  | some m =>
    let generics ←
      if (m.named "generic").isEmpty then pure "" else alignGenerics indent level (m.named "generic")
    let ports ←
      if (m.named "port").isEmpty then pure "" else alignPorts indent level (m.named "port")
    return tabs level ++ m.named "type" ++ " " ++ m.named "name" ++
      (if (m.named "is").isEmpty then "" else " is") ++ "\n" ++ generics ++ ports ++ tabs level ++
      Text.join " " (Text.words (m.named "ending")) ++ ";"

end VhdlWorkbench.Layout
