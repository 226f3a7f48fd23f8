import DesignTokens.Double
import DesignTokens.Text.Blank
import DesignTokens.Token.HexColor

/-!
# Contrast of two colours

The contrast ratio of WCAG 2 compares relative luminances and does not tell text from background.
The lightness contrast of APCA 0.0.98G has a sign: it is negative for light text on a dark
background.
-/

namespace DesignTokens

/-- What comparing a foreground with a background gives. -/
structure Contrast (α : Type) where
  ratio : α
  lightness : α
  deriving DecidableEq, Repr

/-- A way to compare two colours given as text, foreground first. -/
abbrev ContrastChecker (α : Type) := String → String → Option (Contrast α)

namespace Contrast

variable {α : Type} [Scalar α]

/-! ## Levels -/

/-- The ratio suffices for normal text. -/
def meetsAA (c : Contrast α) : Bool := decide ((4.5 : α) ≤ c.ratio)

/-- The ratio suffices for large text. -/
def meetsAALarge (c : Contrast α) : Bool := decide ((3 : α) ≤ c.ratio)

/-- The ratio suffices for normal text at the highest level. -/
def meetsAAA (c : Contrast α) : Bool := decide ((7 : α) ≤ c.ratio)

/-- What the lightness contrast is good for. -/
def usage (c : Contrast α) : String :=
  let x := Scalar.magnitude c.lightness
  if (90 : α) ≤ x then "preferred body text"
  else if (75 : α) ≤ x then "body text"
  else if (60 : α) ≤ x then "content text"
  else if (45 : α) ≤ x then "large text"
  else if (30 : α) ≤ x then "spot text"
  else if (15 : α) ≤ x then "non-text"
  else "invisible"

/-! ## WCAG 2 -/

/-- A channel on the linear light scale. -/
def linear (channel : Nat) : Float :=
  let c := Float.ofNat channel / 255
  if c ≤ 0.04045 then c / 12.92 else Float.pow ((c + 0.055) / 1.055) 2.4

def luminance (c : Rgb) : Float :=
  0.2126 * linear c.red + 0.7152 * linear c.green + 0.0722 * linear c.blue

/-- The contrast ratio of two colours, from one to twenty-one. -/
def wcagRatio (a b : Rgb) : Float :=
  let la := luminance a
  let lb := luminance b
  let (high, low) := if lb ≤ la then (la, lb) else (lb, la)
  (high + 0.05) / (low + 0.05)

/-! ## APCA -/

/-- The luminance of a colour on a screen; near black it is lifted. -/
def screenLuminance (c : Rgb) : Float :=
  let channel (n : Nat) : Float := Float.pow (Float.ofNat n / 255) 2.4
  let y := 0.2126729 * channel c.red + 0.7151522 * channel c.green + 0.072175 * channel c.blue
  if y < 0.022 then y + Float.pow (0.022 - y) 1.414 else y

def apcaLightness (text background : Rgb) : Float :=
  let y := screenLuminance text
  let z := screenLuminance background
  if Float.abs (z - y) < 0.0005 then 0
  else if y < z then
    let c := (Float.pow z 0.56 - Float.pow y 0.57) * 1.14
    if c < 0.1 then 0 else (c - 0.027) * 100
  else
    let c := (Float.pow z 0.65 - Float.pow y 0.62) * 1.14
    if -0.1 < c then 0 else (c + 0.027) * 100

/-- The standard comparison, which knows hex colours. -/
def standard : ContrastChecker Double := fun foreground background => do
  let f ← Rgb.ofText? (Text.trim foreground)
  let b ← Rgb.ofText? (Text.trim background)
  pure ⟨.ofFloat (wcagRatio f b), .ofFloat (apcaLightness f b)⟩

end Contrast

end DesignTokens
