import DesignTokens.Json.Basic

/-!
# JSON numbers

A whole number of 64 bits is kept exactly.  Every other number becomes a double in one or two
floating-point steps: its leading digits, as many as fit 64 bits, times or divided by a power of
ten.  With up to fifteen digits and a power up to `10 ^ 22` that is the nearest double; beyond that
the last bit may be off.

How a number is spelled and what it comes to are two questions: a number beyond the range of a
double is well spelled and comes to nothing.
-/

namespace DesignTokens.Json

/-- A number appended digit by digit as long as it fits 64 bits, and how many digits were taken. -/
def appendDigits (n : Nat) : List Char → Nat × Nat
  | [] => (n, 0)
  | c :: cs =>
    let m := 10 * n + (c.toNat - '0'.toNat)
    if m < Nat.pow 2 64 then
      let (r, taken) := appendDigits m cs
      (r, taken + 1)
    else (n, 0)

def tenTo (k : Nat) : Float := Float.ofScientific 1 false k

/-- A double scaled by a power of ten, unless it leaves the range. -/
def scaled? (x : Float) (power : Int) : Option Float :=
  let k := power.natAbs
  if 0 ≤ power then
    if x == 0 then some x
    else if k ≤ 308 && (x * tenTo k).isFinite then some (x * tenTo k)
    else none
  else if k ≤ 308 then some (x / tenTo k)
  else if k ≤ 616 then some (x / tenTo 308 / tenTo (k - 308))
  else some 0

/-- The double of a number with a whole part, places and an exponent. -/
def double? (whole places : List Char) (exponent : Int) : Option Float :=
  let (kept, taken) := appendDigits 0 whole
  let (digits, takenPlaces) := appendDigits kept places
  let dropped := whole.length - taken
  scaled? (Float.ofNat digits) ((dropped : Int) - takenPlaces + exponent)

/-- The digits of a whole part: one digit, or several of which the first is no zero. -/
def isWholePart : List Char → Bool
  | [] => false
  | [c] => c.isDigit
  | c :: cs => c.isDigit && c != '0' && cs.all Char.isDigit

/-- The places after the whole part and what follows them. -/
def places? (cs : List Char) : Option (List Char × List Char) :=
  match cs with
  | '.' :: after =>
    let places := after.takeWhile Char.isDigit
    if places.isEmpty then none else some (places, after.dropWhile Char.isDigit)
  | _ => some ([], cs)

/-- A whole number without places and exponent. -/
def whole? (negative : Bool) (digits : List Char) : Option Json :=
  let n := Decimal.natOfDigits digits
  if negative then
    if n = 0 then some (real (.ofFloat (-0.0)))
    else if n ≤ Nat.pow 2 63 then some (integer (-(n : Int)))
    else (double? digits [] 0).map fun x => real (.ofFloat (-x))
  else if n < Nat.pow 2 64 then some (integer n)
  else (double? digits [] 0).map fun x => real (.ofFloat x)

/-- A number as it is spelled. -/
structure Spelling where
  negative : Bool
  whole : List Char
  -- The places and the exponent, unless the number is spelled as a whole number.
  scale : Option (List Char × Int)

namespace Spelling

/-- The spelling that a word is. -/
def ofWord? (word : List Char) : Option Spelling := do
  let (negative, body) := match word with
    | '-' :: rest => (true, rest)
    | _ => (false, word)
  let whole := body.takeWhile Char.isDigit
  let rest := body.dropWhile Char.isDigit
  if !isWholePart whole then none
  if rest.isEmpty then some { negative, whole, scale := none }
  else
    let (places, rest) ← places? rest
    let exponent ← Decimal.exponent? rest
    some { negative, whole, scale := some (places, exponent) }

/-- The number that is spelled, if it is in range. -/
def number? (s : Spelling) : Option Json :=
  match s.scale with
  | none => whole? s.negative s.whole
  | some (places, exponent) =>
    (double? s.whole places exponent).map fun x =>
      real (.ofFloat (if s.negative then -x else x))

end Spelling

example : appendDigits 0 "18446744073709551616".toList = (1844674407370955161, 19) := by decide

end DesignTokens.Json
