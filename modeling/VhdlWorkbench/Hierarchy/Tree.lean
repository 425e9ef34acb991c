import VhdlWorkbench.Hierarchy.Walk
import VhdlWorkbench.Text.Segment

/-!
The text of a hierarchy: a line for each instance, indented by its level, with a plus if more follows below it.
-/

namespace VhdlWorkbench.Hierarchy

def maxLevel : Nat := 32

def Explored.remark (e : Explored) (type : String) : String :=
  if e.unresolved.contains type then "  [U]"
  else if e.components.contains type then "  [C]"
  else ""

def entryText (i : Design.Instance) : String :=
  i.label ++ "    (" ++ i.unit ++ ")"

def instanceLines? (e : Explored) (level : Nat) (below : String → Option String) (i : Design.Instance) :
    Option String :=
  let indent := Text.times level "  "
  if (e.instances.lookup i.unit).isSome then
    (below i.unit).map fun lines => indent ++ "+ " ++ entryText i ++ "\n" ++ lines
  else some (indent ++ "- " ++ entryText i ++ e.remark i.unit ++ "\n")

/-- The lines below a type from a level on, for which `left` levels are left; nothing if they are not
enough. -/
def linesBelow? (e : Explored) : Nat → Nat → String → Option String
  | 0, _, _ => none
  | left + 1, level, type =>
    (((e.instances.lookup type).getD []).mapM
      (instanceLines? e level (linesBelow? e left (level + 1)))).map String.join

def treeText? (e : Explored) (type : String) : Option String :=
  (linesBelow? e maxLevel 1 type).map fun below => type ++ "\n" ++ below

def openEntry (indent : Nat) : Pattern.Regex :=
  open Pattern Pattern.Node in
  Regex.ofNode { multiline := true }
    (start ++ lit (Text.spaces indent) ++ lit "+ " ++ identifier ++ gap1 ++ lit "(" ++
      captured identifier ++ lit ")")

/-- The type of the last line at an indentation that has more below it. -/
def parentType? (indent : Nat) (before : String) : Option String :=
  ((openEntry indent).matches_ before).getLast?.map (·.group 1)

end VhdlWorkbench.Hierarchy
