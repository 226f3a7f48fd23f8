import DesignTokens.Json.Basic

/-!
# TOML scalars

Booleans, integers in four bases, doubles, dates and times are runs of letters, digits, signs,
points, colons and underscores; the run as a whole decides what it is.
-/

namespace DesignTokens.Toml

/-- Digits of a class with single underscores between them; the result has the digits alone. -/
def grouped? (isDigit : Char → Bool) : List Char → Option (List Char)
  | [] => none
  | [c] => if isDigit c then some [c] else none
  | c :: '_' :: rest => if isDigit c then (grouped? isDigit rest).map (c :: ·) else none
  | c :: rest => if isDigit c then (grouped? isDigit rest).map (c :: ·) else none

def digitValue (c : Char) : Nat :=
  if c.isDigit then c.toNat - '0'.toNat else c.toLower.toNat - 'a'.toNat + 10

def valueIn (base : Nat) (digits : List Char) : Nat :=
  digits.foldl (fun n c => base * n + digitValue c) 0

def isHexDigit (c : Char) : Bool :=
  c.isDigit || ('a' ≤ c && c ≤ 'f') || ('A' ≤ c && c ≤ 'F')

def isOctalDigit (c : Char) : Bool := '0' ≤ c && c ≤ '7'

def isBinaryDigit (c : Char) : Bool := c == '0' || c == '1'

/-- An integer of 64 bits with a sign. -/
def inRange? (n : Int) : Option Json :=
  let bound : Int := Nat.pow 2 63
  if -bound ≤ n ∧ n < bound then some (.integer n) else none

/-- An integer with a base mark. -/
def based? (base : Nat) (isDigit : Char → Bool) (cs : List Char) : Option Json :=
  (grouped? isDigit cs).bind fun digits => inRange? (valueIn base digits)

/-- The digits of a whole part, which has no needless zero in front. -/
def wholePart? (cs : List Char) : Option (List Char) :=
  match grouped? Char.isDigit cs with
  | some ('0' :: _ :: _) | none => none
  | some digits => some digits

/-- The sign of a number and the rest. -/
def signed (cs : List Char) : Bool × List Char :=
  match cs with
  | '-' :: rest => (true, rest)
  | '+' :: rest => (false, rest)
  | _ => (false, cs)

/-- A double with places or an exponent.  Too large a double is an error unless it is negative. -/
def double? (negative : Bool) (cs : List Char) : Option Json := do
  let mantissa := cs.takeWhile fun c => c != 'e' && c != 'E'
  let exponent ← match cs.drop mantissa.length with
    | [] => some 0
    | _ :: after =>
      let (down, digits) := signed after
      (grouped? Char.isDigit digits).map fun ds =>
        if down then -(valueIn 10 ds : Int) else valueIn 10 ds
  let whole ← wholePart? (mantissa.takeWhile fun c => c != '.')
  let places ← match mantissa.dropWhile fun c => c != '.' with
    | [] => some []
    | _ :: after => grouped? Char.isDigit after
  let x := (Decimal.Numeral.mk negative (valueIn 10 (whole ++ places))
    (exponent - places.length)).toFloat
  if x == 1 / 0 then none else some (.real (.ofFloat x))

def number? (cs : List Char) : Option Json :=
  match cs with
  | '0' :: 'x' :: rest => based? 16 isHexDigit rest
  | '0' :: 'o' :: rest => based? 8 isOctalDigit rest
  | '0' :: 'b' :: rest => based? 2 isBinaryDigit rest
  | _ =>
    let (negative, body) := signed cs
    let sign (x : Double) : Double := if negative then x.negate else x
    if body = ['i', 'n', 'f'] then some (.real (sign (.ofFloat (1 / 0))))
    else if body = ['n', 'a', 'n'] then some (.real (sign .undefined))
    else if body.any fun c => c == '.' || c == 'e' || c == 'E' then double? negative body
    else
      (wholePart? body).bind fun digits =>
        inRange? (if negative then -(valueIn 10 digits : Int) else valueIn 10 digits)

/-! ## Dates and times -/

def twoDigits? (c d : Char) : Option Nat :=
  if c.isDigit && d.isDigit then some (valueIn 10 [c, d]) else none

def daysIn (year month : Nat) : Nat :=
  if month = 2 then
    if year % 4 = 0 ∧ (year % 100 ≠ 0 ∨ year % 400 = 0) then 29 else 28
  else if month = 4 ∨ month = 6 ∨ month = 9 ∨ month = 11 then 30
  else 31

/-- What follows a date at the head of a text. -/
def afterDate? : List Char → Option (List Char)
  | y₁ :: y₂ :: y₃ :: y₄ :: '-' :: m₁ :: m₂ :: '-' :: d₁ :: d₂ :: rest => do
    let century ← twoDigits? y₁ y₂
    let year ← twoDigits? y₃ y₄
    let month ← twoDigits? m₁ m₂
    let day ← twoDigits? d₁ d₂
    if 1 ≤ month ∧ month ≤ 12 ∧ 1 ≤ day ∧ day ≤ daysIn (100 * century + year) month then
      some rest
    else none
  | _ => none

/-- What follows a time at the head of a text. -/
def afterTime? : List Char → Option (List Char)
  | h₁ :: h₂ :: ':' :: m₁ :: m₂ :: ':' :: s₁ :: s₂ :: rest => do
    let hour ← twoDigits? h₁ h₂
    let minute ← twoDigits? m₁ m₂
    let second ← twoDigits? s₁ s₂
    if 23 < hour ∨ 59 < minute ∨ 60 < second then none
    match rest with
    | '.' :: fraction =>
      if (fraction.takeWhile Char.isDigit).isEmpty then none
      else some (fraction.dropWhile Char.isDigit)
    | _ => some rest
  | _ => none

/-- Whether a text is the offset of a time zone, or nothing at all. -/
def isOffset : List Char → Bool
  | [] | ['Z'] | ['z'] => true
  | [sign, h₁, h₂, ':', m₁, m₂] =>
    (sign == '+' || sign == '-') && (twoDigits? h₁ h₂).any (· ≤ 23) &&
      (twoDigits? m₁ m₂).any (· ≤ 59)
  | _ => false

def isDateTime (cs : List Char) : Bool :=
  match afterDate? cs with
  | some [] => true
  | some (d :: rest) =>
    (d == 'T' || d == 't' || d == ' ') && (afterTime? rest).any isOffset
  | none => afterTime? cs == some []

/-- A date or time is a record with one field, which no setting has. -/
def dateJson (cs : List Char) : Json :=
  .record [("date", .text (String.ofList cs))]

def scalar? (cs : List Char) : Option Json :=
  if cs = "true".toList then some (.bool true)
  else if cs = "false".toList then some (.bool false)
  else if isDateTime cs then some (dateJson cs)
  else number? cs

end DesignTokens.Toml
