import VhdlWorkbench.Colour.Value
import VhdlWorkbench.Number.Shortest
import VhdlWorkbench.Scheme.Document
import VhdlWorkbench.Scheme.Selector

/-!
Colours of scopes: those of the rules that fit a scope best. A matcher keeps its answers.
-/

namespace VhdlWorkbench.Scheme

open Colour

structure Shade where
  colour : Option String := none
  seen : Option String := none
deriving DecidableEq, Repr, Inhabited

structure Origin where
  name : Json
  scope : Json

structure Entry where
  name : Json
  scope : Json
  foreground : Shade
  gradient : Option (List (String × String))
  background : Shade
  selection : Shade
  style : List String

structure ScopeColours where
  foreground : Shade
  background : Shade
  selection : Shade
  style : List String := []
  gradient : Option (List (String × String)) := none
  foregroundOrigin : Origin
  backgroundOrigin : Origin
  selectionOrigin : Origin
  boldOrigin : Origin
  italicOrigin : Origin
  gradientOrigin : Option Origin := none

inductive Kept where
  | foreground (colour : Option String)
  | all (colours : ScopeColours)

structure Matcher where
  scheme : String
  loaded : Loaded
  values : List (String × String)
  special : List (String × Shade)
  entries : List (String × Entry)
  /-- How well a selector fits a scope, as the editor scores it. -/
  fit : String → String → Nat := score
  kept : List (String × Kept) := []

def evalVariables (written : List (String × Json)) :
    Except Fault (List (String × String) × List (String × Json)) :=
  written.foldlM (fun (known, written) (name, value) => do
    let text := Text.trim (← textOf value)
    let vars := { known := known.map fun (name, value) => (name, some value), written }
    let value := (← value? vars text).getD ""
    return (Table.put known name value, Table.put written name (.text value))) ([], written)

def evalColour (values : List (String × String)) (written : Json) : Except Fault (Option String) := do
  value? { known := values.map fun (name, value) => (name, some value) }
    (Text.trim (← textOf written))

def colourJson : Option String → Json
  | some s => .text s
  | none => .null

def evalGlobals (values : List (String × String)) (options : List (String × Json)) :
    Except Fault (List (String × Json)) :=
  options.mapM fun (name, written) => do
    match ← evalColour values written with
    | some value => return (name, .text value)
    | none => return (name, written)

/-- A member of a rule with its colour evaluated, if it is a text or, on request, a list. -/
def evalMember (values : List (String × String)) (lists : Bool) (key : String)
    (rule : List (String × Json)) : Except Fault (List (String × Json)) := do
  match rule.lookup key with
  | some (.text s) =>
    return Table.put rule key (colourJson (← evalColour values (.text s)))
  | some (.list items) =>
    if lists then
      let items ← items.mapM fun item => do return colourJson (← evalColour values item)
      return Table.put rule key (.list items)
    else return rule
  | _ => return rule

def evalRule (values : List (String × String)) (rule : Json) : Except Fault Json := do
  let members ← membersOf rule
  match present? members "scope" with
  | none => return rule
  | some _ =>
    let members ← evalMember values true "foreground" members
    let members ← evalMember values false "background" members
    return .object (← evalMember values false "selection_foreground" members)

def evalDocument (e : Edition) (d : Document) : Except Fault (Document × List (String × String)) := do
  let (values, written) ← evalVariables (← membersOf (← entryOf d "variables"))
  let d := Table.put d "variables" (.object written)
  let globals ← evalGlobals values (← membersOf (← entryOf d e.globalsKey))
  let d := Table.put d e.globalsKey (.object globals)
  let rules ← (← partsOf (← entryOf d "rules")).mapM (evalRule values)
  return (Table.put d "rules" (.list rules), values)

/-- A colour before a background; without one, the colour without its alpha. A text that is not digits
behind a hash has no shade. -/
def shade (background : Option String) (colour : Option String) : Except Fault Shade := do
  match colour with
  | none => return {}
  | some colour =>
    if !Text.startsWith colour "#" then return {}
    let rgba ← Rgba.parse (Text.replaceChar colour ' ' "")
    match background with
    | none => return ⟨some colour, some rgba.toRgbText⟩
    | some background =>
      let (result, _) := (applyAlpha background).run.run rgba
      return ⟨some colour, some (← result)⟩

/-- The shades of a list of colours, those without one left out. -/
def gradient (background : Option String) (colours : List Json) :
    Except Fault (List (String × String)) := do
  let shades ← colours.mapM fun colour => do
    match colour with
    | .null => pure {}
    | colour => shade background (some (← textOf colour))
  return shades.filterMap fun s => s.colour.bind fun c => s.seen.map fun seen => (c, seen)

def specialColours (options : List (String × String)) : Except Fault (List (String × Shade)) := do
  let background ← shade none (some ((options.lookup "background").getD "#FFFFFF"))
  let seenOver := shade background.seen
  let foreground ← seenOver (some ((options.lookup "foreground").getD "#000000"))
  let selection ← seenOver (some ((options.lookup "selection").getD "#0000FF"))
  let selectionForeground ← seenOver (options.lookup "selection_foreground")
  let orElse (key : String) (other : Option String) : Option String :=
    (options.lookup key).orElse fun _ => other
  let gutter ← seenOver (orElse "gutter" background.colour)
  let gutterSeen ← seenOver (orElse "gutter" background.seen)
  let gutterForeground ← seenOver (orElse "gutter_foreground" foreground.colour)
  let gutterForegroundSeen ← seenOver (orElse "gutter_foreground" foreground.seen)
  return [("background", background), ("foreground", foreground),
    ("selection_foreground", selectionForeground), ("selection", selection),
    ("gutter", ⟨gutter.colour, gutterSeen.seen⟩),
    ("gutter_foreground", ⟨gutterForeground.colour, gutterForegroundSeen.seen⟩)]

def specialShade (special : List (String × Shade)) (name : String) : Shade :=
  (special.lookup name).getD {}

def memberShade (background : Option String) : Option Json → Except Fault Shade
  | none => .ok {}
  | some value => do shade background (some (← textOf value))

/-- The key under which the entry of a scope is kept. -/
def scopeKey : Json → Except Fault String
  | .text s => .ok s
  | .int n => .ok (toString n)
  | .bool b => .ok (if b then "True" else "False")
  | .decimal d => .ok (floatText d.toFloat)
  | .nonfinite x => .ok (floatText x)
  | .list _ | .object _ | .null => .error .wrongKind

/-- The words for the style of a rule. -/
def styleOf (e : Edition) (members : List (String × Json)) : Except Fault (List String) :=
  match members.lookup e.fontStyleKey with
  | none => .ok []
  | some style => do
    return (Text.splitOn (← textOf style) ' ').filter fun s => s == "bold" || s == "italic"

/-- The foreground of a rule, with all its colours if it is a list of them. -/
def foregroundOf (background : Option String) (members : List (String × Json)) :
    Except Fault (Shade × Option (List (String × String))) :=
  match present? members "foreground" with
  | some (.list colours) => do
    let colours ← gradient background colours
    return ((colours.head?.map fun (c, seen) => ⟨some c, some seen⟩).getD {},
      if colours.isEmpty then none else some colours)
  | colour => do return (← memberShade background colour, none)

def entryOfRule? (e : Edition) (special : List (String × Shade)) (rule : Json) :
    Except Fault (Option (String × Entry)) := do
  let members ← membersOf rule
  match present? members "scope" with
  | none => return none
  | some scope =>
    let style ← styleOf e members
    let background := (specialShade special "background").seen
    let (foreground, colours) ← foregroundOf background members
    let back ← memberShade background (present? members "background")
    let selection ← memberShade (specialShade special "selection").seen
      (present? members "selection_foreground")
    return some (← scopeKey scope,
      { name := (members.lookup "name").getD (.text ""), scope, foreground, gradient := colours
        background := back, selection, style })

def enterRule (e : Edition) (special : List (String × Shade)) (entries : List (String × Entry)) (rule : Json) :
    Except Fault (List (String × Entry)) := do
  match ← entryOfRule? e special rule with
  | none => return entries
  | some (key, entry) => return Table.put entries key entry

def Matcher.ofLoaded (e : Edition) (scheme : String) (loaded : Loaded) : Except Fault Matcher := do
  let (document, values) ← evalDocument e loaded.document
  let options := (← membersOf (← entryOf document e.globalsKey)).filterMap fun (key, value) =>
    value.text?.bind fun s => if Text.startsWith s "#" then some (key, s) else none
  let special ← specialColours options
  let entries ← (← partsOf (← entryOf document "rules")).foldlM (enterRule e special) []
  return { scheme, loaded := { loaded with document }, values, special, entries }

def Matcher.build (e : Edition) (platform : Files.Platform) (r : Files.Resources) (scheme : String) :
    Except Fault Matcher := do
  Matcher.ofLoaded e scheme (← load e platform r scheme)

namespace Matcher

/-- A special colour by its name in either case style, as it is written or as it is seen. -/
def specialColour (m : Matcher) (name : String) (seen : Bool) : Option String :=
  let shade := specialShade m.special (snakeCase name)
  if seen then shade.seen else shade.colour

def scored (m : Matcher) (scope : String) : Except Fault (List (Entry × Nat)) :=
  m.entries.mapM fun (_, entry) => do return (entry, m.fit scope (← textOf entry.scope))

/-- The entry that fits best among those that a test admits; of equal ones the first. -/
def best? (admits : Entry → Bool) (scored : List (Entry × Nat)) : Option Entry :=
  (scored.foldl (fun (best : Option Entry × Nat) (entry, score) =>
    if admits entry && best.2 < score then (some entry, score) else best) (none, 0)).1

/-- The entries that fit better than all before them, in order. -/
def risers (scored : List (Entry × Nat)) : List Entry :=
  (scored.foldl (fun (acc : List Entry × Nat) (entry, score) =>
    if acc.2 < score then (acc.1 ++ [entry], score) else acc) ([], 0)).1

def hasPlainForeground (entry : Entry) : Bool :=
  entry.gradient.isNone && entry.foreground.colour.isSome

def foreground (m : Matcher) (scope : String) : Except Fault (Option String × Matcher) := do
  match m.kept.lookup scope with
  | some (.foreground colour) => return (colour, m)
  | some (.all colours) => return (colours.foreground.colour, m)
  | none =>
    let colour := match best? hasPlainForeground (← m.scored scope) with
      | some entry => entry.foreground.colour
      | none => (specialShade m.special "foreground").colour
    return (colour, { m with kept := Table.put m.kept scope (.foreground colour) })

def originOf (entry : Entry) : Origin :=
  ⟨entry.name, entry.scope⟩

def specialOrigin (name : String) : Origin :=
  ⟨.text name, .text name⟩

/-- The last entry among those given that has a style. -/
def styleOrigin (entries : List Entry) (style : String) : Origin :=
  match entries.reverse.find? (·.style.contains style) with
  | some entry => originOf entry
  | none => specialOrigin ""

def colours (m : Matcher) (scope : String) (explicitBackground : Bool) : Except Fault ScopeColours := do
  let scored ← m.scored scope
  let special := specialShade m.special
  let fore := best? hasPlainForeground scored
  let blend := best? (·.foreground.colour.isSome) scored
  let back := best? (·.background.colour.isSome) scored
  let selected := best? (·.selection.colour.isSome) scored
  let styled := risers scored
  return {
    foreground := (fore.map (·.foreground)).getD (special "foreground")
    background := (back.map (·.background)).getD
      (if explicitBackground then {} else special "background")
    selection := (selected.map (·.selection)).getD (special "selection_foreground")
    style := ["bold", "italic"].filter fun s => styled.any (·.style.contains s)
    gradient := blend.bind (·.gradient)
    foregroundOrigin := (fore.map originOf).getD (specialOrigin "foreground")
    backgroundOrigin := (back.map originOf).getD (specialOrigin "background")
    selectionOrigin := (selected.map originOf).getD (specialOrigin "selection_foreground")
    boldOrigin := styleOrigin styled "bold"
    italicOrigin := styleOrigin styled "italic"
    gradientOrigin := blend.bind fun entry => entry.gradient.map fun _ => originOf entry }

def select (m : Matcher) (c : ScopeColours) : ScopeColours :=
  let c := match c.selection.colour with
    | none => c
    | some _ =>
      { c with foreground := c.selection, foregroundOrigin := c.selectionOrigin
               gradient := none, gradientOrigin := none }
  match (specialShade m.special "selection").colour with
  | none => c
  | some _ =>
    { c with background := specialShade m.special "selection"
             backgroundOrigin := specialOrigin "selection" }

/-- The colours of a scope. An answer that is kept does not depend on how the background is asked for. -/
def scopeColours (m : Matcher) (scope : String) (selected explicitBackground : Bool) :
    Except Fault (ScopeColours × Matcher) := do
  let (found, m) ← match m.kept.lookup scope with
    | some (.all found) => pure (found, m)
    | _ => do
      let found ← m.colours scope explicitBackground
      pure (found, { m with kept := Table.put m.kept scope (.all found) })
  return (if selected then m.select found else found, m)

end Matcher

end VhdlWorkbench.Scheme
