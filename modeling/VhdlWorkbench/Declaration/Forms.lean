import VhdlWorkbench.Pattern.Regex

/-!
The forms of VHDL declarations, as patterns that take the pattern of the declared names as an argument.
-/

namespace VhdlWorkbench.Declaration

open Pattern Pattern.Node

/-- Case is ignored and the line anchors hold at every line. -/
def lineOptions : Options :=
  { ignoreCase := true, multiline := true }

/-- As `lineOptions`, and any character may be a line end. -/
def blockOptions : Options :=
  { ignoreCase := true, multiline := true, dotAll := true }

def notSemicolon : Single :=
  .set true [.char ';']

def listChar : Single :=
  .set false [.category false .space, .category false .word, .char ',']

/-- The characters of a type without an initial value. -/
def typeChar : Single :=
  .set false [.category false .word, .category false .digit, .category false .space, .char '(',
    .char ')']

def identifierList : Node :=
  identifier ++ edge ++ Node.optional (captured (many1 listChar))

def nameInList (name : String) : Node :=
  .group (maybe (.char ',') ++ gap) ++ edge ++ .pasted name ++ edge ++
    Node.optional (.group (many1 listChar))

def nameAlone (name : String) : Node :=
  gap ++ .pasted name ++ gap

def signalForm (names : Node) : Node :=
  start ++ gap ++ named "tag" (choice [lit "signal", lit "variable"]) ++ blank ++
    named "name" names ++ lit ":" ++ gap ++ named "type" (many1 notSemicolon)

def portForm (names : Node) : Node :=
  start ++ named "name" names ++ lit ":" ++ gap ++
    named "port" (choice [lit "in", lit "out", lit "inout"]) ++ gap1 ++
    named "type" (many1 notSemicolon)

def genericForm (names : Node) : Node :=
  start ++ named "name" names ++ lit ":" ++ gap ++ named "type" (many1 typeChar) ++
    Node.optional (.group (gap ++ lit ":=" ++ gap ++ named "value" (many1 notSemicolon)))

def constantForm (names : Node) : Node :=
  start ++ gap ++ named "tag" (lit "constant") ++ blank ++ named "name" names ++ lit ":" ++ gap ++
    named "type" (many1 typeChar) ++ gap ++ lit ":=" ++ gap ++ named "value" (many1 notSemicolon)

def recordForm (names : Node) : Node :=
  start ++ gap ++ named "tag" (lit "type") ++ blank ++ named "name" names ++ blank ++ lit "is" ++
    gap1 ++ named "type" (lit "record") ++ edge ++ named "content" (.run .any 1 none .lazy) ++
    captured (lit "end" ++ gap1 ++ lit "record")

def entityForm (name : Node) : Node :=
  start ++ gap ++ named "type" (lit "entity") ++ gap1 ++ named "name" name ++ gap1 ++ lit "is" ++
    gap1 ++ edge ++ named "content" (.run .any 1 none .lazy) ++ captured (lit "end")

def architectureForm (name : Node) : Node :=
  start ++ gap ++ named "type" (lit "architecture") ++ gap1 ++ named "tag" identifier ++ gap1 ++
    lit "of" ++ gap1 ++ named "name" name ++ gap1 ++ lit "is" ++ gap1 ++ edge ++
    named "content" (many1 .any) ++ captured (lit "end")

def argumentForm : Node :=
  oneOf [start, lit ";"] ++ gap ++
    Node.optional (captured
      (named "tag" (choice [lit "signal", lit "variable", lit "constant"]) ++ gap1)) ++
    named "name" identifierList ++ lit ":" ++ gap ++
    Node.optional (captured
      (named "dir" (choice [lit "in", lit "out", lit "inout"]) ++ gap1)) ++
    named "type" (many1 notSemicolon)

def aliasForm (name : Node) : Node :=
  start ++ gap ++ named "tag" (lit "alias") ++ gap1 ++ named "name" name ++ gap ++ lit ":" ++ gap ++
    named "type" (few .any) ++ edge ++ lit "is" ++ gap1 ++
    Node.optional (named "value" (many1 notSemicolon))

def externalAliasForm (name : Node) : Node :=
  start ++ gap ++ named "tag" (lit "alias") ++ gap1 ++ named "name" name ++ gap1 ++ lit "is" ++
    gap1 ++ lit "<<" ++ named "value" (few .any) ++ lit ">>" ++ gap ++ lit ";"

end VhdlWorkbench.Declaration
