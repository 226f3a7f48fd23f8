import DesignTokens.Decimal.Text
import DesignTokens.Text.Blank
import DesignTokens.Token.HexColor

/-!
# Token values

A value is a number, a dimension or a text of one of four kinds.  Only texts can hold references
to other tokens, so a raw text with an opening brace is always read as plain text.
-/

namespace DesignTokens

inductive Kind where
  | color
  | dimension
  | number
  | fontFamily
  | shadow
  | text
  deriving DecidableEq, Repr

namespace Kind

def all : List Kind := [color, dimension, number, fontFamily, shadow, text]

def id : Kind → String
  | color => "color"
  | dimension => "dimension"
  | number => "number"
  | fontFamily => "font-family"
  | shadow => "shadow"
  | text => "text"

def ofId? (s : String) : Option Kind := all.find? fun k => k.id == s

end Kind

inductive Value where
  | color (text : String)
  | dimension (size : Float) (unit : String)
  | number (size : Float)
  | fontFamily (text : String)
  | shadow (text : String)
  | text (text : String)
  deriving BEq, DecidableEq, Repr

namespace Value

def kind : Value → Kind
  | color _ => .color
  | dimension _ _ => .dimension
  | number _ => .number
  | fontFamily _ => .fontFamily
  | shadow _ => .shadow
  | text _ => .text

/-- The text of a value that is one. -/
def text? : Value → Option String
  | color s | fontFamily s | shadow s | text s => some s
  | dimension _ _ | number _ => none

/-- The same kind of value with another text; a numeric value stays as it is. -/
def withText (v : Value) (s : String) : Value :=
  match v with
  | color _ => color s
  | fontFamily _ => fontFamily s
  | shadow _ => shadow s
  | text _ => text s
  | dimension _ _ | number _ => v

/-- The value as it is written in a token file. -/
def render : Value → String
  | color s | fontFamily s | shadow s | text s => s
  | dimension size unit => Decimal.plain size ++ unit
  | number size => Decimal.plain size

/-- The canonical hex colour of a text value that is one. -/
def hexColor? (v : Value) : Option String :=
  v.text?.bind fun s => (Rgb.ofText? (Text.trim s)).map Rgb.toHex

def isColorLiteral (v : Value) : Bool :=
  v.text?.any fun s => DesignTokens.isColorLiteral (Text.trim s)

/-! ## Reading a raw text -/

def units : List String := ["px", "rem", "em", "%", "vh", "vw", "pt", "ch", "ms", "s"]

/-- A dimension: an optional minus sign, digits with optional places, and a unit. -/
def dimensionOf? (cs : List Char) : Option (Float × String) :=
  let (negative, body) := match cs with
    | '-' :: rest => (true, rest)
    | _ => (false, cs)
  let whole := body.takeWhile Char.isDigit
  let rest := body.dropWhile Char.isDigit
  let (places, unit) := match rest with
    | '.' :: after =>
      match after.takeWhile Char.isDigit with
      | [] => ([], rest)
      | places => (places, after.dropWhile Char.isDigit)
    | _ => ([], rest)
  if whole.isEmpty || !units.contains (String.ofList unit) then none
  else
    let size : Decimal.Numeral :=
      ⟨negative, Decimal.natOfDigits (whole ++ places), -(places.length : Int)⟩
    some (size.toFloat, String.ofList unit)

/-- The value that a raw text stands for. -/
def infer (raw : String) : Value :=
  let trimmed := Text.trim raw
  if trimmed.toList.contains '{' then text raw
  else if DesignTokens.isColorLiteral trimmed then color trimmed
  else
    match dimensionOf? trimmed.toList with
    | some (size, unit) => dimension size unit
    | none =>
      match Decimal.read? trimmed with
      | some size => number size
      | none => text raw

end Value

end DesignTokens
