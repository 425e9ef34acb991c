import VhdlWorkbench.Number.Rounding

/-!
Conversions between colour spaces, with components from 0 to 1.
-/

namespace VhdlWorkbench.Colour

abbrev Triple := Float × Float × Float

/-- The larger of two numbers, the first when they are equal. -/
def maxFloat (a b : Float) : Float :=
  if a < b then b else a

/-- The smaller of two numbers, the first when they are equal. -/
def minFloat (a b : Float) : Float :=
  if b < a then b else a

/-- The hue of a colour whose largest component is `high` and whose components span `span`. -/
def hueOf (r g b high span : Float) : Float :=
  let rc := (high - r) / span
  let gc := (high - g) / span
  let bc := (high - b) / span
  let h := if r == high then bc - gc else if g == high then 2.0 + rc - bc else 4.0 + gc - rc
  floatMod (h / 6.0) 1.0

def hlsOfRgb (r g b : Float) : Triple :=
  let high := maxFloat (maxFloat r g) b
  let low := minFloat (minFloat r g) b
  let sum := high + low
  let span := high - low
  let l := sum / 2.0
  if low == high then (0.0, l, 0.0)
  else
    let s := if l ≤ 0.5 then span / sum else span / (2.0 - high - low)
    (hueOf r g b high span, l, s)

def hlsComponent (m1 m2 hue : Float) : Float :=
  let hue := floatMod hue 1.0
  if hue < 1.0 / 6.0 then m1 + (m2 - m1) * hue * 6.0
  else if hue < 0.5 then m2
  else if hue < 2.0 / 3.0 then m1 + (m2 - m1) * (2.0 / 3.0 - hue) * 6.0
  else m1

def rgbOfHls (h l s : Float) : Triple :=
  if s == 0.0 then (l, l, l)
  else
    let m2 := if l ≤ 0.5 then l * (1.0 + s) else l + s - (l * s)
    let m1 := 2.0 * l - m2
    (hlsComponent m1 m2 (h + 1.0 / 3.0), hlsComponent m1 m2 h, hlsComponent m1 m2 (h - 1.0 / 3.0))

def hsvOfRgb (r g b : Float) : Triple :=
  let high := maxFloat (maxFloat r g) b
  let low := minFloat (minFloat r g) b
  let span := high - low
  if low == high then (0.0, 0.0, high) else (hueOf r g b high span, span / high, high)

def rgbOfHsv (h s v : Float) : Except Fault Triple :=
  if s == 0.0 then .ok (v, v, v)
  else do
    let i ← truncateFloat (h * 6.0)
    let f := h * 6.0 - Float.ofInt i
    let p := v * (1.0 - s)
    let q := v * (1.0 - s * f)
    let t := v * (1.0 - s * (1.0 - f))
    return match i % 6 with
      | 0 => (v, t, p)
      | 1 => (q, v, p)
      | 2 => (p, v, t)
      | 3 => (p, q, v)
      | 4 => (t, p, v)
      | _ => (v, p, q)

def divide (a b : Float) : Except Fault Float :=
  if b == 0.0 then .error .divisionByZero else .ok (a / b)

end VhdlWorkbench.Colour
