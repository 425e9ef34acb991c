import VhdlWorkbench.Declaration.Entry
import VhdlWorkbench.Pattern.Regex
import VhdlWorkbench.Text.Lowercase

/-!
Declarations as markup.
-/

namespace VhdlWorkbench.Inspect

open Pattern Pattern.Node

def plainTypes : List String :=
  ["bit", "bit_vector", "boolean", "character", "integer", "natural", "positive", "real", "string",
   "std_logic", "std_ulogic", "std_logic_vector", "std_ulogic_vector", "signed", "unsigned"]

def keywords : List String :=
  ["signal", "variable", "constant", "port", "type", "is", "end", "record", "array", "downto", "to",
   "of", "in", "out", "inout", "entity", "component", "alias"]

/-- A word, a shift mark, another character, or a run of blanks. -/
def piece : Regex :=
  Regex.ofNode {}
    (choice
      [identifier, lit "<<", lit ">>",
       .one (.set true [.category false .word, .category false .space]), gap1])

def pieces (s : String) : List String :=
  (piece.matches_ s).map (·.text)

def inClass (name s : String) : String :=
  "<span class=\"" ++ name ++ "\">" ++ s ++ "</span>"

/-- What the pieces of a declaration say about it: the piece that is the type, the target of the link,
and a word in front. -/
structure Marks where
  typeIndex : Option Nat := none
  link : String := ""
  lead : String := ""

def localLink (pieces : List String) : Except Fault String :=
  match pieces with
  | kind :: _ :: name :: _ => .ok ("LOCAL@" ++ kind ++ ":" ++ name)
  | _ => .error .noElement

def fileLink (file : String) (row col : Int) : String :=
  "LINK@" ++ file ++ ":" ++ toString row ++ ":" ++ toString col

/-- A declaration begins with a word that tells where its name and its type stand. -/
def isSelfTelling (first : String) : Bool :=
  ["signal", "variable", "constant", "alias"].contains (Text.toLower first) || first == "port"

/-- The marks of a declaration; a reference to a unit links to the given target. -/
def marksOf (pieces : List String) (subject : Option Entry) (reference : String) :
    Except Fault Marks := do
  match pieces with
  | [] => throw .noElement
  | first :: _ =>
    if isSelfTelling first then
      return { typeIndex := some (if first == "port" then 8 else 6), link := ← localLink pieces }
    else match subject with
      | none => return {}
      | some entry =>
        let tag ← entry.tag.read "tag"
        if tag == some "reference" then
          let _ ← entry.name.demand "name"
          return { link := reference }
        else if tag == some "generic" then
          return { typeIndex := some 4, link := ← localLink pieces
                   lead := inClass "keyword" "generic" ++ " " }
        else match entry.location with
          | some l => return { link := fileLink l.file l.row l.col }
          | none => return {}

/-- The unit that a declaration refers to, if its link leads there. -/
def referencedUnit? (s : String) (subject : Option Entry) : Option String :=
  match pieces s, subject with
  | first :: _, some entry =>
    if !isSelfTelling first && entry.tag == .text "reference" then entry.name.text? else none
  | _, _ => none

def beginsWithDigit (s : String) : Bool :=
  match s.toList with
  | c :: _ => Text.isDigit c
  | [] => false

def markPiece (marks : Marks) (linked : Option Entry) (index : Nat) (s : String) :
    Except Fault String := do
  let lower := Text.toLower s
  if keywords.contains lower then return inClass "keyword" s
  if [":", "-", "+", "="].contains s then return inClass "operator" s
  if s == "<<" then return inClass "operator" "&lt;&lt;"
  if s == ">>" then return inClass "operator" "&gt;&gt;"
  if beginsWithDigit s then return inClass "numeric" s
  if marks.typeIndex == some index || plainTypes.contains lower then return inClass "storage" s
  let isName ← match linked with
    | some entry =>
      if marks.link.isEmpty then pure false else do pure ((← entry.name.read "name") == some s)
    | none => pure false
  if isName then return "<a href=\"" ++ marks.link ++ "\">" ++ s ++ "</a>"
  else if (Text.trim s).isEmpty then return " "
  else return s

/-- The target of a link to a unit that is not known. -/
def unknownPlace : String :=
  fileLink "" (-1) (-1)

def highlight (s : String) (addLink : Bool) (subject : Option Entry)
    (reference : String) : Except Fault String := do
  let pieces := pieces s
  let marks ← marksOf pieces subject reference
  let linked := if addLink then subject else none
  let marked ← pieces.zipIdx.mapM fun (s, index) => markPiece marks linked index s
  return marks.lead ++ String.join marked

end VhdlWorkbench.Inspect
