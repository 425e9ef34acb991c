import VhdlWorkbench.Pattern.Parser

/-!
The causes for which an operation gives no result.
-/

namespace VhdlWorkbench

/-- Why an operation gives no result. -/
inductive Fault where
  | pattern (cause : Pattern.PatternError)
  /-- A table has no entry for a key, given as reports write it. -/
  | noEntry (key : String)
  | noElement
  /-- An absent value stands where the operation needs a text or a list. -/
  | wrongKind
  /-- A question is put to an absent value. -/
  | noMember
  | badValue
  | tooLarge
  | noBuffer
  /-- A value is read on a path that has not set it. -/
  | unset
  | divisionByZero
  | notColour
  /-- A number has more digits than the rounding rule admits. -/
  | tooManyDigits
  | circular
  | noFile
  | isFolder
  /-- There is no such comment style; the style as reports write it. -/
  | noCommentStyle (style : String)
  | notJson
  | notPropertyList
  | badMarkup
  /-- The editor has been asked too often within one step. -/
  | hostLimit
  | noView
  | noPanel
deriving DecidableEq, Repr

/-- The outcome of building a pattern as the outcome of an operation. -/
def Pattern.orFault {α : Type} (r : Except Pattern.PatternError α) : Except Fault α :=
  r.mapError .pattern

end VhdlWorkbench
