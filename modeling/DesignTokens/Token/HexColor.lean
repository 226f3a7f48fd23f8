/-!
# Hex colours

A hex colour is `#` followed by three, six or eight hexadecimal digits.  With three digits every
digit stands for itself twice; with eight the last two are an opacity, which is read and dropped.
The canonical text of a colour has six small digits.
-/

namespace DesignTokens

/-- The red, green and blue channels of a colour, each below 256. -/
structure Rgb where
  red : Nat
  green : Nat
  blue : Nat
  deriving DecidableEq, Repr

namespace Rgb

/-- The value of a hexadecimal digit in either letter case. -/
def hexValue? (c : Char) : Option Nat :=
  if '0' ≤ c ∧ c ≤ '9' then some (c.toNat - '0'.toNat)
  else if 'a' ≤ c ∧ c ≤ 'f' then some (c.toNat - 'a'.toNat + 10)
  else if 'A' ≤ c ∧ c ≤ 'F' then some (c.toNat - 'A'.toNat + 10)
  else none

def hexDigit (n : Nat) : Char :=
  if n < 10 then Char.ofNat ('0'.toNat + n) else Char.ofNat ('a'.toNat + (n - 10))

/-- The channels named by the digits after the `#`. -/
def ofDigits? : List Nat → Option Rgb
  | [r, g, b] => some ⟨16 * r + r, 16 * g + g, 16 * b + b⟩
  | [r, r', g, g', b, b'] => some ⟨16 * r + r', 16 * g + g', 16 * b + b'⟩
  | [r, r', g, g', b, b', _, _] => some ⟨16 * r + r', 16 * g + g', 16 * b + b'⟩
  | _ => none

/-- The colour that a text denotes. -/
def ofChars? : List Char → Option Rgb
  | '#' :: digits => (digits.mapM hexValue?).bind ofDigits?
  | _ => none

def ofText? (text : String) : Option Rgb := ofChars? text.toList

def channelDigits (n : Nat) : List Char := [hexDigit (n / 16), hexDigit (n % 16)]

def toHex (c : Rgb) : String :=
  String.ofList ('#' :: (channelDigits c.red ++ channelDigits c.green ++ channelDigits c.blue))

end Rgb

def colorFunctions : List String := ["rgb(", "rgba(", "hsl(", "hsla(", "oklch("]

/-- Whether a text is a colour by itself: a hex colour or a functional notation. -/
def isColorLiteral (text : String) : Bool :=
  (Rgb.ofText? text).isSome ||
    (let cs := text.toList.map Char.toLower
     colorFunctions.any (fun opening => opening.toList.isPrefixOf cs) && cs.getLast? == some ')')

end DesignTokens
