import VhdlWorkbench.Layout.Indent
import VhdlWorkbench.Pattern.Regex
import VhdlWorkbench.Text.Lines

/-!
Rows of aligned declarations: what the blocks share. A column is as wide as its widest entry in the whole block.
-/

namespace VhdlWorkbench.Layout

open Pattern Pattern.Node

def space : Single :=
  .set false [.char ' ', .char '\t']

def spacing : Node :=
  many space

def spacing1 : Node :=
  many1 space

def blockRows : Options :=
  { ignoreCase := true, dotAll := true, multiline := true }

def oneRow : Options :=
  { ignoreCase := true, dotAll := true }

def nameList : Node :=
  identifier ++ Node.optional (.group (gap ++ lit "," ++ many1
    (.set false [.category false .space, .category false .word, .char ','])))

def rangeBound : Node :=
  many1 (.set false [.category false .word, .char '-', .char '+'])

/-- An optional range: in parentheses, or behind the word `range`. -/
def rangePart : Node :=
  Node.optional (named "range" (choice
    [lit "(" ++ many (.set true [.char ')']) ++ lit ")",
     lit "range" ++ spacing1 ++ rangeBound ++ spacing1 ++
      .group (Node.optional (.group (lit "down")) ++ lit "to") ++ spacing1 ++ rangeBound]))

/-- An optional initial value that does not contain the end of the declaration. -/
def initialPart : Node :=
  Node.optional (named "init" (spacing ++ lit ":=" ++ spacing ++
    named "init_val" (.run (.set true [.char ';']) 1 none .lazy)))

def commentChar : Single :=
  .set true [.char '\n']

def commentLine : Regex :=
  Regex.ofNode {}
    (start ++ named "space" spacing ++ lit "--" ++ spacing ++ named "comment" (few .any) ++
      captured (choice [lit "\n", stop]))

/-- The width of the widest entry of a column, blanks around the entries left out. -/
def widest (entries : List String) : Nat :=
  (entries.map fun e => (Text.trim e).length).foldl max 0

def columnWidth (rows : List Match) (part : String) : Nat :=
  widest (rows.map (·.named part))

/-- The width of the initial value column with its assignment sign; zero when there is no value. -/
def initialWidth (rows : List Match) (part : String) : Nat :=
  let n := columnWidth rows part
  if 0 < n then n + 4 else 0

/-- The range is introduced by its word and is set off by a space. -/
def hasRangeWord (range : String) : Bool :=
  Text.contains range "range"

def part? (m : Match) (name : String) : Option String :=
  (m.named? name).filter (!·.isEmpty)

def initialColumn (width : Nat) (value : Option String) : String :=
  if width = 0 then ""
  else
    match value with
    | none => Text.spaces width
    | some value => " := " ++ Text.padRight (width - 4) value

def rangeColumn (width : Nat) (range : String) : String :=
  if width = 0 then ""
  else if range.isEmpty then Text.spaces width
  else if hasRangeWord range then " " ++ Text.padRight (width - 1) range
  else Text.padRight width range

end VhdlWorkbench.Layout
