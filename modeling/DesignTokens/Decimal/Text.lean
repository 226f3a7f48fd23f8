import DesignTokens.Decimal.Shortest

/-!
# Numbers written and read as text

Three ways to write a double: `plain` (shortest digits, never an exponent), `literal` (the form of
a JSON number, always marked as fractional by a point or an exponent) and `fixed` (a given number
of places, a half going to the even neighbour).  `Numeral` is the value of a decimal literal
before rounding, and `Numeral.toFloat` its nearest double.
-/

namespace DesignTokens.Decimal

/-- The text of a natural number with at least `width` digits. -/
def padded (width n : Nat) : String :=
  let digits := toString n
  String.ofList (List.replicate (width - digits.length) '0') ++ digits

def zeros (n : Nat) : String := String.ofList (List.replicate n '0')

def signText (negative : Bool) : String := if negative then "-" else ""

/-! ## Positional notation -/

/-- A decimal in positional notation; no point is written when there are no places. -/
def Scaled.positional (d : Scaled) : String :=
  let digits := (toString d.digits).toList
  let whole := (digits.length : Int) + d.power
  if 0 ≤ d.power then String.ofList digits ++ zeros d.power.toNat
  else if 0 < whole then
    String.ofList (digits.take whole.toNat) ++ "." ++ String.ofList (digits.drop whole.toNat)
  else "0." ++ zeros (-whole).toNat ++ String.ofList digits

/-- Shortest digits that read back, never an exponent. -/
def plain (x : Float) : String :=
  match Binary.ofFloat x with
  | .notANumber => "NaN"
  | .infinite negative => signText negative ++ "inf"
  | .finite negative 0 _ => signText negative ++ "0"
  | .finite negative m q => signText negative ++ (shortest m q).positional

/-- A decimal with an exponent, the first digit before the point. -/
def Scaled.scientific (d : Scaled) : String :=
  let digits := (toString d.digits).toList
  let lead := (digits.length : Int) - 1 + d.power
  let tail := if digits.length ≤ 1 then "" else "." ++ String.ofList (digits.drop 1)
  let sign := if lead < 0 then "-" else "+"
  String.ofList (digits.take 1) ++ tail ++ "e" ++ sign ++ toString lead.natAbs

/-- The text of a finite double as a JSON number: positional from `1e-5` up to `1e16`, with `.0`
when there are no places, and with an exponent elsewhere. -/
def literal (x : Float) : String :=
  match Binary.ofFloat x with
  | .notANumber | .infinite _ => "null"
  | .finite negative 0 _ => signText negative ++ "0.0"
  | .finite negative m q =>
    let d := shortest m q
    let whole := (digitCount d.digits : Int) + d.power
    signText negative ++
      (if -5 < whole ∧ whole ≤ 16 then
        d.positional ++ (if 0 ≤ d.power then ".0" else "")
      else d.scientific)

/-! ## Fixed places -/

/-- The quotient rounded to the nearest natural number, a half to the even neighbour. -/
def roundDiv (num den : Nat) : Nat :=
  let low := num / den
  match compare (2 * (num % den)) den with
  | .lt => low
  | .gt => low + 1
  | .eq => low + low % 2

/-- The fraction `num / den` with a fixed number of places. -/
def fixedFraction (places num den : Nat) : String :=
  let unit := Nat.pow 10 places
  let scaled := roundDiv (num * unit) den
  if places = 0 then toString scaled
  else toString (scaled / unit) ++ "." ++ padded places (scaled % unit)

/-- A double with a fixed number of places; the sign of a negative zero is kept. -/
def fixed (places : Nat) (x : Float) : String :=
  match Binary.ofFloat x with
  | .notANumber => "NaN"
  | .infinite negative => signText negative ++ "inf"
  | .finite negative m q =>
    let v := binaryFraction m q
    signText negative ++ fixedFraction places v.1 v.2

/-! ## Reading -/

/-- The value `± digits · 10 ^ power` of a decimal literal. -/
structure Numeral where
  negative : Bool
  digits : Nat
  power : Int
  deriving DecidableEq, Repr

/-- The nearest double.  Beyond 310 digits before the point every literal is infinite, and below
`1e-330` every literal is zero, so no large power is computed. -/
def Numeral.toFloat (n : Numeral) : Float :=
  let top := (digitCount n.digits : Int) + n.power
  let size : Float :=
    if n.digits = 0 ∨ top < -330 then 0
    else if 310 < top then 1 / 0
    else Float.ofScientific n.digits (decide (n.power < 0)) n.power.natAbs
  if n.negative then -size else size

def natOfDigits (cs : List Char) : Nat := cs.foldl (fun n c => 10 * n + (c.toNat - '0'.toNat)) 0

/-- A sign and the rest of the text. -/
def takeSign : List Char → Bool × List Char
  | '-' :: cs => (true, cs)
  | '+' :: cs => (false, cs)
  | cs => (false, cs)

/-- An optional exponent that fills the whole text. -/
def exponent? : List Char → Option Int
  | [] => some 0
  | c :: cs =>
    if c = 'e' ∨ c = 'E' then
      let (negative, digits) := takeSign cs
      if !digits.isEmpty && digits.all Char.isDigit then
        some (if negative then -(natOfDigits digits : Int) else natOfDigits digits)
      else none
    else none

/-- Digits, a point and an exponent; a digit must stand before or after the point. -/
def unsigned? (negative : Bool) (cs : List Char) : Option Numeral := do
  let whole := cs.takeWhile Char.isDigit
  let rest := cs.dropWhile Char.isDigit
  let (places, rest) := match rest with
    | '.' :: after => (after.takeWhile Char.isDigit, after.dropWhile Char.isDigit)
    | _ => ([], rest)
  if whole.isEmpty && places.isEmpty then none
  let e ← exponent? rest
  pure ⟨negative, natOfDigits (whole ++ places), e - places.length⟩

/-- The double that a text denotes: an optional sign and then digits with an optional point and
exponent, or one of the words `inf`, `infinity` and `nan` in any letter case. -/
def read? (text : String) : Option Float :=
  let (negative, cs) := takeSign text.toList
  let signed (x : Float) : Float := if negative then -x else x
  match String.ofList (cs.map Char.toLower) with
  | "inf" | "infinity" => some (signed (1 / 0))
  | "nan" => some (signed (0 / 0))
  | _ => (unsigned? negative cs).map Numeral.toFloat

end DesignTokens.Decimal
