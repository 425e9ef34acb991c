import VhdlWorkbench.Editor.Workspace
import VhdlWorkbench.Scheme.Matcher

/-!
The style of pop-ups, taken from the colour scheme of the preferences.
-/

namespace VhdlWorkbench.Inspect

open Editor Editor.Act

def shiftChannel (by_ channel : Nat) : Nat :=
  if 128 < channel then channel - by_ else channel + by_

/-- A background moved towards the middle, as digits behind a hash. -/
def shiftBackground (by_ : Nat) (c : Colour.Rgba) : String :=
  "#" ++ String.ofList (Text.hexDigits 6
    (shiftChannel by_ c.b.toNat + shiftChannel by_ c.g.toNat * 256 + shiftChannel by_ c.r.toNat * 65536))

def colourWord (c : Option String) : String :=
  c.getD "None"

def colourRule (selector : String) (c : Option String) : String :=
  selector ++ " \x7bcolor: " ++ colourWord c ++ ";\x7d\n"

/-- The classes of the markup with the scopes that they take their colours from. -/
def scopeClasses : List (String × String) :=
  [(".keyword", "keyword"), (".support", "support"), (".storage", "storage"),
   (".function", "support.function"), (".entity", "entity"), (".operator", "keyword.operator"),
   (".numeric", "constant.numeric"), (".string", "string")]

def classRules (m : Scheme.Matcher) :
    List (String × String) → Except Fault (String × Scheme.Matcher)
  | [] => .ok ("", m)
  | (selector, scope) :: rest => do
    let (colour, m) ← m.foreground scope
    let (rules, m) ← classRules m rest
    return (colourRule selector colour ++ rules, m)

/-- The style sheet of pop-ups in a scheme, and the scheme's colour of operators. -/
def styleSheet (m : Scheme.Matcher) : Except Fault (String × Option String) := do
  let foreground := m.specialColour "foreground" false
  let background ← match m.specialColour "background" false with
    | some s => Colour.Rgba.parse s
    | none => pure {}
  let head :=
    "html \x7b background-color: " ++ shiftBackground 0x33 background ++ "; color: " ++
      colourWord foreground ++ "; \x7d\n" ++
    "body \x7b background-color: " ++ shiftBackground 0x20 background ++
      "; margin: 1px; font-size: 1em; \x7d\n" ++
    "p \x7bpadding-left: 0.6em;\x7d\n" ++
    ".content \x7bmargin: 0.8em;\x7d\n" ++
    "h1 \x7bfont-size: 1.0rem;font-weight: bold; margin: 0 0 0.25em 0;\x7d\n" ++
    colourRule "a" foreground
  let (rules, m) ← classRules m scopeClasses
  let tail :=
    ".extra-info \x7bfont-size: 0.9em; \x7d\n" ++
    ".ref_links \x7bfont-size: 0.9em; color: #0080D0; padding-left: 0.6em\x7d\n"
  let (operator, _) ← m.foreground "keyword.operator"
  return (head ++ rules ++ tail, operator)

def loadStyle : Act Unit := do
  let w ← get
  let setting (key : String) : Json := (w.vhdlSettings.lookup key).getD (.bool true)
  let flags := if (setting "vhdl.tooltip_hide_on_move").isTrue then 8 else 0
  let showReferences :=
    if 3145 ≤ w.edition.version then setting "vhdl.tooltip_show_refs" else .bool false
  modify fun w => { w with popups := { w.popups with flags, showReferences } }
  match w.preferences.lookup "color_scheme" with
  | some (.text scheme) =>
    let m ← lift (Scheme.Matcher.build w.edition w.platform ⟨w.resources, w.store⟩ scheme)
    let (css, operator) ← lift (styleSheet m)
    modify fun w => { w with popups := { w.popups with css, operatorColour := some operator } }
  | _ => throw .noMember

end VhdlWorkbench.Inspect
