import VhdlWorkbench.Fault
import VhdlWorkbench.Json.Lenient
import VhdlWorkbench.Pattern.Regex
import VhdlWorkbench.Text.Quoted

/-!
Comment styles by name: with slashes, or with a hash.
-/

namespace VhdlWorkbench.Source

open Pattern Pattern.Node

inductive CommentStyle where
  | slashes
  | hash
deriving DecidableEq, Repr

/-- The style of a name; an absent name has none either. -/
def CommentStyle.ofName (name : Option String) : Except Fault CommentStyle :=
  match name with
  | none => .error (.noCommentStyle "None")
  | some name =>
    if ["c", "json", "cpp"].contains name then .ok .slashes
    else if name == "python" then .ok .hash
    else .error (.noCommentStyle (Text.quoted name))

def escapePair : Node :=
  lit "\\" ++ .one .any

/-- Characters between quotes, a backslash always with the character behind it. -/
def literalBody (excluded : List SetItem) : Node :=
  .rep (oneOf [escapePair, .one (.set true excluded)]) 0 none .greedy

def threeQuotes (quote : Char) : Node :=
  .run (.char quote) 3 (some 3) .greedy

/-- A piece of text in the style with a hash: a comment in group 1, or code in group 2. -/
def hashPiece : Regex :=
  Regex.ofNode { dotAll := true }
    (choice
      [captured (gap ++ lit "#" ++ many (.set true [.char '\r', .char '\n'])),
       captured (choice
        [threeQuotes '"' ++ literalBody [.char '\\'] ++ threeQuotes '"',
         threeQuotes '\x27' ++ literalBody [.char '\\'] ++ threeQuotes '\x27',
         lit "\"" ++ literalBody [.char '"', .char '\\'] ++ lit "\"",
         lit "'" ++ literalBody [.char '\x27'] ++ lit "'",
         .one .any ++ many (.set true [.char '#', .char '"', .char '\x27'])])])

def stripComments (style : CommentStyle) (keepLines : Bool) (text : String) : String :=
  match style with
  | .slashes => Json.withoutComments keepLines text
  | .hash =>
    String.join ((hashPiece.matches_ text).map fun m =>
      match m.group? 2 with
      | some code => code
      | none => String.ofList (Json.residue keepLines (m.group 1).toList))

end VhdlWorkbench.Source
