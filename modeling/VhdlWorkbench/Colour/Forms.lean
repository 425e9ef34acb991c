import VhdlWorkbench.Colour.Names
import VhdlWorkbench.Colour.Rgba

/-!
Written forms of colours: digits behind a hash, functions, variables, mixtures and names.
-/

namespace VhdlWorkbench.Colour

open Pattern Pattern.Node

def numeral : Node :=
  maybe (.set false [.char '+', .char '-']) ++
    oneOf
      [.group (many (.category false .digit) ++ lit "." ++ many1 (.category false .digit)),
       many1 (.category false .digit)]

def percentage : Node :=
  numeral ++ lit "%"

def comma : Node :=
  gap ++ lit "," ++ gap

def leading (count : Nat) (argument : Node) : Node :=
  .rep (.group (argument ++ comma)) count (some count) .greedy

def alphaArgument : Node :=
  oneOf [percentage, numeral]

def hashDigits (name : String) (count : Nat) : Node :=
  named name (lit "#" ++ named (name ++ "_content") (.run hexChar count (some count) .greedy)) ++ edge

def call (name : String) (arguments : Node) : Node :=
  edge ++ named name (lit (name ++ "(") ++ gap ++ named (name ++ "_content") arguments ++ gap ++ lit ")")

def rgbForms : List Node :=
  [hashDigits "hexa" 8, hashDigits "hex" 6, hashDigits "hexa_compressed" 4,
   hashDigits "hex_compressed" 3,
   call "rgb" (choice
    [leading 2 numeral ++ numeral, leading 2 percentage ++ percentage]),
   call "rgba" (choice
    [leading 3 numeral ++ alphaArgument, leading 3 percentage ++ alphaArgument])]

def hslForms : List Node :=
  [call "hsl" (numeral ++ comma ++ percentage ++ comma ++ percentage),
   call "hsla" (numeral ++ comma ++ leading 2 percentage ++ alphaArgument)]

def variableForm : Node :=
  call "var" (.one (.set false [.char '-', .category false .word]) ++
    many (.set false [.char '-', .category false .word, .category false .digit]))

def mixtureForm : Node :=
  edge ++ named "color" (lit "color(" ++ named "color_content" (many .any) ++ lit ")")

/-- A named colour that is not the name of a function, in the group with the given number. -/
def nameForm (slot : Nat) : Node :=
  edge ++ .capture slot (some "name") (choice (namedColours.map fun (name, _) => lit name)) ++ edge ++
    .look none true (lit "(")

/-- The given forms and behind them the named colours. Only the forms have groups to be numbered. -/
def formsOrName (forms : List Node) : Regex :=
  let numbered := (choice forms).number 1
  { node := .group (.alt numbered.1 (nameForm numbered.2))
    options := { ignoreCase := true }
    slots := numbered.2 + 1
    names := numbered.1.names ++ [("name", numbered.2)] }

@[irreducible] def colourForm : Regex :=
  formsOrName (rgbForms ++ hslForms ++ [variableForm, mixtureForm])

@[irreducible] def ingredientForm : Regex :=
  formsOrName (rgbForms ++ [variableForm])

def digitColours : List Node :=
  [lit "#" ++ .run hexChar 8 (some 8) .greedy, lit "#" ++ .run hexChar 6 (some 6) .greedy]

def mixture : Regex :=
  Regex.ofNode {}
    (lit "color(" ++ gap ++ named "base" (choice digitColours) ++
      gap1 ++ named "type" (lit "blend" ++ maybe (.char 'a')) ++ lit "(" ++
      named "color" (choice digitColours) ++ gap1 ++ named "percent" percentage ++ lit ")" ++
      Node.optional (named "other" (.rep (.group
        (gap1 ++ lit "blend" ++ maybe (.char 'a') ++ lit "(" ++ oneOf digitColours ++ gap1 ++
          percentage ++ lit ")")) 1 none .greedy)) ++
      gap ++ lit ")")

inductive Form where
  /-- One digit for each channel. -/
  | short (digits : String)
  /-- Two digits for each channel. -/
  | long (digits : String)
  | rgb (arguments : String)
  | rgba (arguments : String)
  | hsl (arguments : String)
  | hsla (arguments : String)
  | ofVariable (name : String)
  | mixture (text : String)
  | ofName (name : String)
deriving DecidableEq, Repr

def formGroups : List (String × (String → Form)) :=
  [("hex_compressed_content", .short), ("hexa_compressed_content", .short), ("hex_content", .long),
   ("hexa_content", .long), ("rgb_content", .rgb), ("rgba_content", .rgba), ("hsl_content", .hsl),
   ("hsla_content", .hsla), ("var_content", .ofVariable), ("name", .ofName), ("color", .mixture)]

/-- The form that a match of `colourForm` or `ingredientForm` has found. -/
def Form.ofMatch? (m : Match) : Option Form :=
  formGroups.findSome? fun (slot, form) => (m.named? slot).map form

def Form.ofText? (text : String) : Option Form :=
  (colourForm.matchStart? text).bind Form.ofMatch?

end VhdlWorkbench.Colour
