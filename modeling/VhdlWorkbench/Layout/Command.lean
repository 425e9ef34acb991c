import VhdlWorkbench.Editor.Scope
import VhdlWorkbench.Layout.Instance
import VhdlWorkbench.Layout.Objects
import VhdlWorkbench.Layout.Record
import VhdlWorkbench.Number.Rounding

/-!
The command that aligns the code around the cursor.
-/

namespace VhdlWorkbench.Layout

open Editor Editor.Act

def wholeNumber : Json → Except Fault Int
  | .int n => .ok n
  | .bool b => .ok (if b then 1 else 0)
  | .decimal d => truncateFloat d.toFloat
  | .nonfinite x => truncateFloat x
  | .text s =>
    match Text.integer? s with
    | some n => .ok n
    | none => .error .badValue
  | _ => .error .wrongKind

def growForward (id : Nat) (wanted : String) : Nat → Region → Act Region
  | 0, r => return r
  | fuel + 1, r => do
    let p ← next id r.b [.wordStart, .punctuationStart, .emptyLine]
    let scope ← scopeAt id p
    if p ≤ r.b || !Text.contains scope wanted then return r
    growForward id wanted fuel ((← buffer id).line ⟨r.a, p⟩)

def growBackward (id : Nat) (wanted : String) : Nat → Region → Act Region
  | 0, r => return r
  | fuel + 1, r => do
    let p ← previous id r.a [.lineStart, .emptyLine]
    let p ← next id p [.wordStart, .punctuationStart]
    let scope ← scopeAt id p
    if p == -1 || r.a ≤ p || !Text.contains scope wanted then return r
    growBackward id wanted fuel ((← buffer id).line ⟨p, r.b⟩)

/-- The whole lines of a region and their text, aligned by a function of text and level. -/
def alignLines (id : Nat) (indent : Indentation) (r : Region)
    (align : String → Int → Act String) : Act (Region × String) := do
  let r := (← buffer id).line r
  let text ← textOf id r
  let level ← lift (indent.level (← textOf id r))
  return (r, ← align text level)

/-- An instance, aligned; a text that is none is reported. -/
def alignInstanceText (text : String) (level : Int) : Act String := do
  if (instanceBlock.matchStart? text).isNone then print "Fail"
  return (← lift (alignInstance text level)).getD ""

def objectKind? (scope : String) : Option String :=
  ["signal", "variable", "constant"].find? fun kind => Text.contains scope ("meta.block." ++ kind)

/-- The lines around the cursor that can be aligned, and their aligned text; no text if there are
none. -/
def alignAround (id : Nat) (indent : Indentation) (scope : String) (r : Region) :
    Act (Region × String) := do
  let has := Text.contains scope
  if has "_instantiation" then
    let kind :=
      if has "meta.block.entity_instantiation" then "meta.block.entity_instantiation"
      else "meta.block.component_instantiation"
    alignLines id indent (← expandToScope id kind r) alignInstanceText
  else if has "meta.block.entity.vhdl" || has "meta.block.component.vhdl" then
    let kind := if has "meta.block.entity.vhdl" then "meta.block.entity" else "meta.block.component"
    alignLines id indent (← expandToScope id kind r) fun text level =>
      lift (alignEntity indent text level)
  else if has "meta.block.record.vhdl" then
    alignLines id indent (← expandToScope id "meta.block.record" r) fun text level =>
      lift (alignRecord indent text level)
  else match objectKind? scope with
    | none => return (r, "")
    | some kind =>
      let b ← buffer id
      let wanted := "meta.block." ++ kind
      let r ← growForward id wanted (b.size + 1) (b.line r)
      let r ← growBackward id wanted (b.size + 1) r
      alignLines id indent r fun text level => return alignObjects text level

/-- Aligns the code around the cursor, which stays at its row and column. -/
def alignCommand (id : Nat) : Act Unit := do
  let b ← buffer id
  match b.selection with
  | [] => return
  | r :: _ =>
    let tabSize ← lift (wholeNumber (b.setting "tab_size" (.int 4)))
    let indent : Indentation :=
      { tabSize, useSpaces := (b.setting "translate_tabs_to_spaces" .null).isTrue }
    let (row, col) := b.rowCol r.a
    let scope ← scopeAt id r.a
    let scope ←
      if r.a < r.b then do
        pure (if (← scopeAt id r.b) != scope then "" else scope)
      else pure scope
    let (r, text) ← alignAround id indent scope r
    if text.isEmpty then status "No alignement support for this block of code."
    else
      changeBuffer id (·.replace r text)
      moveCursor id ((← buffer id).textPoint row col)

end VhdlWorkbench.Layout
