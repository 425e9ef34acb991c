import VhdlWorkbench.Colour.Forms
import VhdlWorkbench.Text.Quoted
import VhdlWorkbench.Text.Segment

/-!
Values of written colours: digits behind a hash. A mixture that cannot be evaluated has no value.
-/

namespace VhdlWorkbench.Colour

open Pattern

def readFloat (s : String) : Except Fault Float :=
  match Number.parseFloat? s with
  | some x => .ok x
  | none => .error .badValue

/-- The alpha digits of a share from 0 to 1; other numbers are taken to the nearer bound. -/
def alphaOfShare (s : String) : Except Fault String := do
  let x ← readFloat s
  let x ←
    if x < 0.0 || 1.0 < x then
      readFloat (← formatPlaces 3 (.real (clampFloat x 0.0 1.0)))
    else pure x
  return hexByte false (← roundFloat (x * 255.0)).toNat

/-- The alpha digits of a percentage; other numbers are taken to the nearer bound. -/
def alphaOfPercent (s : String) : Except Fault String := do
  let x ← readFloat (Text.strip s '%')
  return hexByte false (← roundFloat (clampFloat x 0.0 100.0 / 100.0 * 255.0)).toNat

def alphaOf (s : String) : Except Fault String :=
  if Text.endsWith s "%" then alphaOfPercent s else alphaOfShare s

/-- The arguments of a function without the blanks around them. -/
def arguments (s : String) : List String :=
  (Text.splitOn s ',').map Text.trim

def digitsOfChannels (channels : List Nat) : String :=
  "#" ++ String.join (channels.map (hexByte false))

/-- A channel as a percentage, which may exceed the bound of channels. -/
def percentChannel (s : String) : Except Fault Nat := do
  let x ← readFloat (Text.strip s '%')
  return (← roundFloat (clampFloat x 0.0 255.0 * percentSteps)).toNat

def numberChannel (s : String) : Except Fault Nat := do
  return (← roundChannel (← readFloat s)).toNat

def rgbValue (args : List String) : Except Fault String := do
  let percent := (args.head?.map (Text.endsWith · "%")).getD false
  let channels ← (args.take 3).mapM (if percent then percentChannel else numberChannel)
  return digitsOfChannels channels

/-- The percentage of an argument as a share from 0 to 1. -/
def shareOf (s : String) : Except Fault Float := do
  return clampFloat (← readFloat (Text.strip s '%')) 0.0 100.0 / 100.0

def hslValue (args : List String) : Except Fault String := do
  match args with
  | hue :: saturation :: lightness :: _ =>
    let degrees ← readFloat hue
    let degrees := if degrees < 0.0 || 360.0 < degrees then floatMod degrees 360.0 else degrees
    let saturation ← shareOf saturation
    let lightness ← shareOf lightness
    let (result, colour) := (fromHls (degrees / 360.0) lightness saturation).run.run {}
    result
    return colour.toRgbText
  | _ => throw .noElement

def alphaValue (args : List String) : Except Fault String :=
  match args[3]? with
  | some alpha => alphaOf alpha
  | none => .error .noElement

/-- The value of digits behind a hash, `width` for each channel; what is left is alpha as written. -/
def digitsValue (width : Nat) (digits : String) : String :=
  let cs := digits.toList
  let channelOf (offset : Nat) : Nat := if width = 1 then nibbleAt cs offset else byteAt cs (2 * offset)
  digitsOfChannels [channelOf 0, channelOf 1, channelOf 2] ++ String.ofList (cs.drop (3 * width))

/-- Blends the first colour of a mixture into its base. -/
def blendFirst (m : Match) : Except Fault String := do
  let percent ← readFloat (Text.strip (m.named "percent") '%')
  let base ← Rgba.parse (m.named "base")
  let (result, colour) := (blend (m.named "color") percent (m.named "type" == "blenda")).run.run base
  result
  match m.named? "other" with
  | some other => return "color(" ++ colour.toShortText ++ " " ++ other ++ ")"
  | none => return colour.toShortText

def blendAll : Nat → String → Except Fault String
  | 0, text => .ok text
  | fuel + 1, text => do
    let (text, count) ← mixture.replaceByM blendFirst text
    if count = 0 then return text else blendAll fuel text

/-- The value of a mixture, given the values of its ingredients; one without a value is left out. -/
def mixtureValue (value : Form → Except Fault (Option String)) (text : String) : Except Fault String := do
  let (text, _) ← ingredientForm.replaceByM (fun m =>
    match Form.ofMatch? m with
    | none => pure ""
    | some form => do return (← value form).getD "") text
  blendAll (text.length + 1) text

structure Variables where
  /-- The evaluated variables; some have no value. -/
  known : List (String × Option String) := []
  written : List (String × Json) := []

/-- The value of a form. The fuel bounds how many forms are evaluated inside each other, which only
variables that name each other in a circle exceed. -/
def evalForm (vars : Variables) : Nat → Form → Except Fault (Option String)
  | 0, _ => .error .circular
  | fuel + 1, form => do
    match form with
    | .short digits => return some (digitsValue 1 digits)
    | .long digits => return some (digitsValue 2 digits)
    | .rgb args => return some (← rgbValue (arguments args))
    | .rgba args =>
      let args := arguments args
      let value ← rgbValue args
      return some (value ++ (← alphaValue args))
    | .hsl args => return some (← hslValue (arguments args))
    | .hsla args =>
      let args := arguments args
      let value ← hslValue args
      return some (value ++ (← alphaValue args))
    | .ofVariable name =>
      match vars.known.lookup name with
      | some value => return value
      | none =>
        match vars.written.lookup name with
        | none => throw (.noEntry (Text.quoted name))
        | some (.text written) =>
          match Form.ofText? (Text.trim written) with
          | none => return none
          | some form => evalForm vars fuel form
        | some _ => throw .noMember
    | .ofName name => return ofName? name
    | .mixture text => return (mixtureValue (evalForm vars fuel) text).toOption

def valueOf (vars : Variables) (m : Match) : Except Fault (Option String) :=
  match Form.ofMatch? m with
  | none => .ok none
  | some form => evalForm vars (2 * vars.written.length + 3) form

def value? (vars : Variables) (text : String) : Except Fault (Option String) :=
  match colourForm.matchStart? text with
  | none => .ok none
  | some m => valueOf vars m

end VhdlWorkbench.Colour
