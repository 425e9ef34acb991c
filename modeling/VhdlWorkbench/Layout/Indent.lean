import VhdlWorkbench.Fault
import VhdlWorkbench.Text.Segment

/-!
Indentation with tabs or spaces; aligned text is always indented with tabs.
-/

namespace VhdlWorkbench.Layout

structure Indentation where
  tabSize : Int := 4
  useSpaces : Bool := false
deriving DecidableEq, Repr

/-- As many tabs as the level says; none for a negative level. -/
def tabs (level : Int) : String :=
  Text.times level.toNat "\t"

/-- The first line of a text; a text without a line feed loses its last character. -/
def firstLine (text : String) : String :=
  match Text.find? text "\n" with
  | some n => Text.slice text 0 n
  | none => Text.slice text 0 (text.length - 1)

def leadingBlanks (line : String) : Nat :=
  line.length - (Text.trimLeft line).length

def Indentation.level (i : Indentation) (text : String) : Except Fault Int :=
  let line := firstLine text
  let unit := Text.spaces i.tabSize.toNat
  if i.useSpaces then
    if i.tabSize = 0 then .error .divisionByZero
    else .ok (Int.tdiv (leadingBlanks (Text.replaceAll line "\t" unit)) i.tabSize)
  else .ok (leadingBlanks (Text.replaceAll line unit "\t"))

end VhdlWorkbench.Layout
