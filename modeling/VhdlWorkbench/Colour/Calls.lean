import VhdlWorkbench.Colour.Value

/-!
The calls that a colour takes one after the other; also a call that fails leaves a colour behind.
-/

namespace VhdlWorkbench.Colour

inductive Percent where
  | number (x : Float)
  | written (s : String)
deriving Repr

def Percent.read : Percent → Except Fault Float
  | .number x => .ok x
  | .written s => readFloat s

inductive Call where
  | channels (s : String)
  | rgbText
  | text
  | toHls
  | toHsv
  | toHwb
  | fromHls (h l s : Float)
  | fromHsv (h s v : Float)
  | fromHwb (h w b : Float)
  | perceivedLuminance
  | trueLuminance
  | applyAlpha (background : String)
  | alpha (factor : Float)
  | red (factor : Float)
  | green (factor : Float)
  | blue (factor : Float)
  | luminance (factor : Float)
  | saturation (factor : Float)
  | contrast (factor : Float)
  | brightness (factor : Float)
  | hue (degrees : Float)
  | colorize (degrees : Float)
  | invert
  | grayscale
  | sepia
  | blend (other : String) (percent : Percent) (withAlpha : Bool)
  | overage (value : Number)
  | distribute (components : List Number) (excess : Float) (slots : List String)
deriving Repr

inductive Answer where
  | nothing
  | text (s : String)
  | components (t : Triple)
  | level (n : Int)
  | overage (excess : Float) (value : Number)
  | numbers (ns : List Number)
deriving Repr

def Call.run : Call → Filter Answer
  | .channels s => do
    let c ← Filter.lift (Rgba.parse s)
    return .numbers [.int c.r, .int c.g, .int c.b, .int c.a]
  | .rgbText => return .text (← get).toRgbText
  | .text => return .text (← get).toText
  | .toHls => return .components (← Colour.toHls)
  | .toHsv => return .components (← Colour.toHsv)
  | .toHwb => return .components (← Colour.toHwb)
  | .fromHls h l s => do Colour.fromHls h l s; return .nothing
  | .fromHsv h s v => do Colour.fromHsv h s v; return .nothing
  | .fromHwb h w b => do Colour.fromHwb h w b; return .nothing
  | .perceivedLuminance => return .level (← Colour.perceivedLuminance)
  | .trueLuminance => return .level (← Colour.trueLuminance)
  | .applyAlpha background => return .text (← Colour.applyAlpha background)
  | .alpha factor => do adjustAlpha factor; return .nothing
  | .red factor => do adjustRed factor; return .nothing
  | .green factor => do adjustGreen factor; return .nothing
  | .blue factor => do adjustBlue factor; return .nothing
  | .luminance factor => do adjustLuminance factor; return .nothing
  | .saturation factor => do adjustSaturation factor; return .nothing
  | .contrast factor => do adjustContrast factor; return .nothing
  | .brightness factor => do adjustBrightness factor; return .nothing
  | .hue degrees => do shiftHue degrees; return .nothing
  | .colorize degrees => do Colour.colorize degrees; return .nothing
  | .invert => do Colour.invert; return .nothing
  | .grayscale => do Colour.grayscale; return .nothing
  | .sepia => do Colour.sepia; return .nothing
  | .blend other percent withAlpha => do
    Colour.blend other (← Filter.lift percent.read) withAlpha
    return .nothing
  | .overage value =>
    let (excess, value) := Colour.overage value
    return .overage excess value
  | .distribute components excess slots => return .numbers (Colour.distribute components excess slots)

def Call.on (call : Call) (c : Rgba) : Except Fault Answer × Rgba :=
  call.run.run.run c

def Rgba.after (c : Rgba) (calls : List Call) : Rgba :=
  calls.foldl (fun c call => (call.on c).2) c

end VhdlWorkbench.Colour
