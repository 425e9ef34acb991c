import VhdlWorkbench.Colour.Space
import VhdlWorkbench.Number.Reading
import VhdlWorkbench.Pattern.Regex

/-!
Colours with channels from 0 to 255, and the filters on them; a filter that fails keeps what it has set.
-/

namespace VhdlWorkbench.Colour

open Pattern Pattern.Node

structure Rgba where
  r : Int := 0
  g : Int := 0
  b : Int := 0
  a : Int := 255
deriving DecidableEq, Repr

/-- A step on a colour: what it sets before a failure stays set. -/
abbrev Filter (α : Type) := ExceptT Fault (StateM Rgba) α

def hexChar : Single :=
  .set false [.range 'A' 'F', .range 'a' 'f', .category false .digit]

def colourText : Regex :=
  Regex.ofNode {}
    (start ++ lit "#" ++ oneOf
      [captured (.run hexChar 6 (some 6) .greedy) ++
        Node.optional (captured (.run hexChar 2 (some 2) .greedy)),
       captured (.run hexChar 3 (some 3) .greedy)])

def hexNumeral (digits : List Char) : Nat :=
  digits.foldl (fun n c => n * 16 + (Text.hexValue? c).getD 0) 0

/-- The channel that two digits of a text write, from an offset on. -/
def byteAt (cs : List Char) (offset : Nat) : Nat :=
  hexNumeral ((cs.drop offset).take 2)

/-- The channel that one digit of a text writes, the digit doubled. -/
def nibbleAt (cs : List Char) (offset : Nat) : Nat :=
  let digit := (cs.drop offset).take 1
  hexNumeral (digit ++ digit)

def Rgba.parse (s : String) : Except Fault Rgba :=
  match colourText.matchStart? s with
  | none => .error .notColour
  | some m =>
    let cs := s.toList
    if (m.group? 1).isSome then
      .ok { r := byteAt cs 1, g := byteAt cs 3, b := byteAt cs 5
            a := match m.group? 2 with
              | some alpha => hexNumeral alpha.toList
              | none => 255 }
    else .ok { r := nibbleAt cs 1, g := nibbleAt cs 2, b := nibbleAt cs 3, a := 255 }

def hexByte (upper : Bool) (n : Nat) : String :=
  let digits := Nat.toDigits 16 n
  let digits := if digits.length < 2 then '0' :: digits else digits
  String.ofList (if upper then digits.map Char.toUpper else digits)

/-- Hexadecimal digits of a channel, at least two characters with its sign. -/
def channelText (n : Int) : String :=
  if n < 0 then "-" ++ String.ofList ((Nat.toDigits 16 n.natAbs).map Char.toUpper)
  else hexByte true n.toNat

namespace Rgba

def toRgbText (c : Rgba) : String :=
  "#" ++ channelText c.r ++ channelText c.g ++ channelText c.b

def toText (c : Rgba) : String :=
  c.toRgbText ++ channelText c.a

/-- The colour in writing, without its alpha channel when it is opaque. -/
def toShortText (c : Rgba) : String :=
  if c.a = 255 then c.toRgbText else c.toText

end Rgba

def channel (n : Int) : Int :=
  max (min n 255) 0

/-- A floating-point number as a channel: rounded, then kept within bounds. -/
def roundChannel (x : Float) : Except Fault Int :=
  (roundFloat x).map channel

def channelScale : Float := 1.0 / 255.0

def hueScale : Float := 1.0 / 360.0

def percentSteps : Float := 255.0 / 100.0

/-- A foreground channel laid over a background channel, each with its alpha. -/
def mixChannel (foreground alpha background backgroundAlpha : Float) : Except Fault Int :=
  roundChannel (foreground * (alpha * channelScale) +
    background * (backgroundAlpha * channelScale) * (1.0 - alpha * channelScale)).abs

/-- As `mixChannel`, of channels. -/
def mixChannels (foreground alpha background backgroundAlpha : Int) : Except Fault Int :=
  mixChannel (.ofInt foreground) (.ofInt alpha) (.ofInt background) (.ofInt backgroundAlpha)

def Filter.lift {α : Type} (e : Except Fault α) : Filter α :=
  ExceptT.mk (pure e)

def setRed (e : Except Fault Int) : Filter Unit := do
  let v ← Filter.lift e
  modify fun c => { c with r := v }

def setGreen (e : Except Fault Int) : Filter Unit := do
  let v ← Filter.lift e
  modify fun c => { c with g := v }

def setBlue (e : Except Fault Int) : Filter Unit := do
  let v ← Filter.lift e
  modify fun c => { c with b := v }

def setAlpha (e : Except Fault Int) : Filter Unit := do
  let v ← Filter.lift e
  modify fun c => { c with a := v }

def setComponents (rgb : Triple) : Filter Unit := do
  setRed (roundChannel (rgb.1 * 255.0))
  setGreen (roundChannel (rgb.2.1 * 255.0))
  setBlue (roundChannel (rgb.2.2 * 255.0))

def toHls : Filter Triple := do
  let c ← get
  return hlsOfRgb (.ofInt c.r * channelScale) (.ofInt c.g * channelScale) (.ofInt c.b * channelScale)

def toHsv : Filter Triple := do
  let c ← get
  return hsvOfRgb (.ofInt c.r * channelScale) (.ofInt c.g * channelScale) (.ofInt c.b * channelScale)

def toHwb : Filter Triple := do
  let (h, s, v) ← toHsv
  return (h, (1.0 - s) * v, 1.0 - v)

def fromHls (h l s : Float) : Filter Unit :=
  setComponents (rgbOfHls h l s)

def fromHsv (h s v : Float) : Filter Unit := do
  setComponents (← Filter.lift (rgbOfHsv h s v))

/-- Sets the colour from hue, whiteness and blackness, which are scaled down if they exceed one
together. -/
def fromHwb (h w b : Float) : Filter Unit := do
  let (w, b) :=
    if 1.0 < w + b then
      let scale := 1.0 / (w + b)
      (w * scale, b * scale)
    else (w, b)
  let share ← Filter.lift (divide w (1.0 - b))
  fromHsv h (1.0 - share) (1.0 - b)

/-- The colour as it is seen before a background. -/
def applyAlpha (background : String) : Filter String := do
  let c ← get
  if c.a < 255 then
    let back ← Filter.lift (Rgba.parse background)
    setRed (mixChannels c.r c.a back.r back.a)
    setGreen (mixChannels c.g c.a back.g back.a)
    setBlue (mixChannels c.b c.a back.b back.a)
  return (← get).toRgbText

def luminanceOf (c : Rgba) : Except Fault Int :=
  roundChannel (0.299 * .ofInt c.r + 0.587 * .ofInt c.g + 0.114 * .ofInt c.b)

def perceivedLuminance : Filter Int := do
  Filter.lift (luminanceOf (← get))

def trueLuminance : Filter Int := do
  let (_, l, _) ← toHls
  Filter.lift (roundChannel (l * 255.0))

/-- A channel moved by a factor, where 1 changes nothing: kept within bounds, then rounded. -/
def shiftChannel (value : Int) (factor : Float) : Except Fault Int :=
  roundInt (Number.clamp (.real (.ofInt value + 255.0 * factor - 255.0)) (.int 0) (.int 255))

def adjustAlpha (factor : Float) : Filter Unit := do
  setAlpha (shiftChannel (← get).a factor)

def adjustRed (factor : Float) : Filter Unit := do
  setRed (shiftChannel (← get).r factor)

def adjustGreen (factor : Float) : Filter Unit := do
  setGreen (shiftChannel (← get).g factor)

def adjustBlue (factor : Float) : Filter Unit := do
  setBlue (shiftChannel (← get).b factor)

/-- Lays a percentage of the colour over another; the alpha channel only on request. -/
def blend (other : String) (percent : Float) (alpha : Bool) : Filter Unit := do
  let factor ← Filter.lift (roundChannel (clampFloat percent 0.0 100.0 * percentSteps))
  let c ← get
  let back ← Filter.lift (Rgba.parse other)
  setRed (mixChannels c.r factor back.r 255)
  setGreen (mixChannels c.g factor back.g 255)
  setBlue (mixChannels c.b factor back.b 255)
  if alpha then setAlpha (mixChannels c.a factor back.a 255)

def adjustLuminance (factor : Float) : Filter Unit := do
  let (h, l, s) ← toHls
  fromHls h (clampFloat (l + factor - 1.0) 0.0 1.0) s

def adjustSaturation (factor : Float) : Filter Unit := do
  let (h, l, s) ← toHls
  fromHls h l (clampFloat (s + factor - 1.0) 0.0 1.0)

def colorize (degrees : Float) : Filter Unit := do
  let (_, l, s) ← toHls
  fromHls (clampFloat (degrees * hueScale) 0.0 1.0) l s

/-- Subtracts one until the value is at most one. -/
def lowerHue : Nat → Float → Float
  | 0, h => h
  | n + 1, h => if 1.0 < h then lowerHue n (h - 1.0) else h

/-- Adds one until the value is not negative. -/
def raiseHue : Nat → Float → Float
  | 0, h => h
  | n + 1, h => if h < 0.0 then raiseHue n (h + 1.0) else h

/-- The number of whole turns in a hue, which bounds the steps that bring it into range. -/
def hueTurns (h : Float) : Nat :=
  match Dyadic.ofFloat? h with
  | none => 0
  | some d => d.wholePart + 2

def shiftHue (degrees : Float) : Filter Unit := do
  let (h, l, s) ← toHls
  let h := h + degrees * hueScale
  let h := lowerHue (hueTurns h) h
  fromHls (raiseHue (hueTurns h) h) l s

/-- Changes the contrast by a factor from 0 to 2. -/
def adjustContrast (factor : Float) : Filter Unit := do
  let f := (clampFloat factor 0.0 2.0 - 1.0) * 255.0
  let f := (259.0 * (f + 255.0)) / (255.0 * (259.0 - f))
  let c ← get
  setRed (roundChannel (f * (.ofInt c.r - 128.0) + 128.0))
  setGreen (roundChannel (f * (.ofInt c.g - 128.0) + 128.0))
  setBlue (roundChannel (f * (.ofInt c.b - 128.0) + 128.0))

def flipByte (n : Int) : Int :=
  n - n % 256 + (255 - n % 256)

def invert : Filter Unit :=
  modify fun c => { c with r := flipByte c.r, g := flipByte c.g, b := flipByte c.b }

def grayscale : Filter Unit := do
  let l ← perceivedLuminance
  modify fun c => { c with r := l, g := l, b := l }

def sepiaChannel (c : Rgba) (r g b : Float) : Except Fault Int :=
  roundChannel (.ofInt c.r * r + .ofInt c.g * g + .ofInt c.b * b)

def sepia : Filter Unit := do
  let c ← get
  let r ← Filter.lift (sepiaChannel c 0.393 0.769 0.189)
  let g ← Filter.lift (sepiaChannel c 0.349 0.686 0.168)
  let b ← Filter.lift (sepiaChannel c 0.272 0.534 0.131)
  set { c with r, g, b }

/-- What a value exceeds the channel bounds by, and the value within the bounds. -/
def overage (c : Number) : Float × Number :=
  let x := c.toFloat
  if x < 0.0 then (0.0 + x, .real 0.0)
  else if 255.0 < x then (x - 255.0, .real 255.0)
  else (0.0, c)

/-- Spreads an excess evenly over the slots named by letters. -/
def distribute (c : List Number) (excess : Float) (slots : List String) : List Number :=
  let has := slots.contains
  let part := excess / slots.length.toFloat
  let add (n : Number) : Number := .real (n.toFloat + part)
  match c with
  | [r, g, b] =>
    if slots.isEmpty then c
    else if has "r" && has "g" then [add r, add g, b]
    else if has "r" && has "b" then [add r, g, add b]
    else if has "g" && has "b" then [r, add g, add b]
    else if has "r" then [add r, g, b]
    else if has "g" then [r, add g, b]
    else [r, g, add b]
  | _ => c

/-- Brings one component within bounds and spreads its excess over the slots that are left. -/
def settle (state : List Number × List String) (slot : Nat × String) : List Number × List String :=
  match state.1[slot.1]? with
  | none => state
  | some value =>
    let (excess, value) := overage value
    let components := state.1.set slot.1 value
    if excess == 0.0 then (components, state.2)
    else
      let slots := state.2.erase slot.2
      (distribute components excess slots, slots)

def adjustBrightness (factor : Float) : Filter Unit := do
  let c ← get
  let l ← perceivedLuminance
  let total := clampFloat (.ofInt l + 255.0 * factor - 255.0) 0.0 255.0
  if total == 255.0 then set { c with r := 255, g := 255, b := 255 }
  else if total == 0.0 then set { c with r := 0, g := 0, b := 0 }
  else
    let pts := total - 0.299 * .ofInt c.r - 0.587 * .ofInt c.g - 0.114 * .ofInt c.b
    let components : List Number :=
      [.real (.ofInt c.r + pts), .real (.ofInt c.g + pts), .real (.ofInt c.b + pts)]
    let (components, _) := [(0, "r"), (1, "g"), (2, "b")].foldl settle (components, ["r", "g", "b"])
    match components with
    | [r, g, b] =>
      setRed (roundChannel r.toFloat)
      setGreen (roundChannel g.toFloat)
      setBlue (roundChannel b.toFloat)
    | _ => pure ()

end VhdlWorkbench.Colour
