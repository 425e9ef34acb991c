import VhdlWorkbench.Text.Blank
import VhdlWorkbench.Text.Segment

/-!
Selectors on scopes. A word selects a scope with the same word, or with a word that continues it behind a dot.
-/

namespace VhdlWorkbench.Scheme

def selects (word scopeWord : String) : Bool :=
  scopeWord == word || Text.startsWith scopeWord (word ++ ".")

/-- The score of one alternative: the parts of its words if each selects, else 0. -/
def alternativeScore (scopeWords : List String) (alternative : String) : Nat :=
  let words := Text.words alternative
  if words.all fun word => scopeWords.any (selects word) then
    words.foldl (fun total word => total + (Text.count word '.' + 1)) 0
  else 0

def score (scope selector : String) : Nat :=
  ((Text.splitOn selector ',').map (alternativeScore (Text.words scope))).foldl max 0

end VhdlWorkbench.Scheme
