import DesignTokens.Decimal.Binary

/-!
# The shortest decimal that reads back

A double owns the interval of reals that round to it, closed at both ends when its significand is
even.  For one digit, two digits and so on, the two neighbours of the double on the decimal grid
with that many digits are tried: the first grid with a neighbour inside the interval wins, and of
two such neighbours the nearer one.  Seventeen digits always suffice.
-/

namespace DesignTokens.Decimal

/-- The number `digits · 10 ^ power`. -/
structure Scaled where
  digits : Nat
  power : Int
  deriving DecidableEq, Repr

namespace Scaled

def fraction (d : Scaled) : Nat × Nat := decimalFraction d.digits d.power

/-- The same number without trailing zero digits. -/
def normalized (digits : Nat) (power : Int) : Scaled :=
  if h : digits ≠ 0 ∧ digits % 10 = 0 then normalized (digits / 10) (power + 1)
  else ⟨digits, power⟩
termination_by digits
decreasing_by omega

end Scaled

def digitCount (n : Nat) : Nat := (Nat.toDigits 10 n).length

/-- The power of ten of the leading digit of `m · 2 ^ q`. -/
def decade (m : Nat) (q : Int) : Int :=
  let v := binaryFraction m q
  (digitCount (v.1 * Nat.pow 10 400 / v.2) : Int) - 401

/-- Whether a decimal lies in the interval of reals that round to `m · 2 ^ q`. -/
def readsBackAs (m : Nat) (q : Int) (d : Scaled) : Bool :=
  let below := if m = Nat.pow 2 52 ∧ q ≠ -1074 then 4 * m - 1 else 4 * m - 2
  let low := compareFractions (binaryFraction below (q - 2)) d.fraction
  let high := compareFractions d.fraction (binaryFraction (4 * m + 2) (q - 2))
  if m % 2 = 0 then low.isLE && high.isLE else low == .lt && high == .lt

/-- The neighbour of `m · 2 ^ q` on the grid of multiples of `10 ^ power` that reads back, if one
does: the nearer of two, the even one of two equally near. -/
def gridHit? (m : Nat) (q : Int) (power : Int) : Option Scaled :=
  let v := binaryFraction m q
  let unit := decimalFraction 1 power
  let low := v.1 * unit.2 / (v.2 * unit.1)
  let down : Scaled := ⟨low, power⟩
  let up : Scaled := ⟨low + 1, power⟩
  match readsBackAs m q down, readsBackAs m q up with
  | true, false => some down
  | false, true => some up
  | false, false => none
  | true, true =>
    let half := decimalFraction (2 * low + 1) power
    match compareFractions (2 * v.1, v.2) half with
    | .lt => some down
    | .gt => some up
    | .eq => some (if low % 2 = 0 then down else up)

/-- The shortest decimal that reads back as `m · 2 ^ q`, for a positive `m`. -/
def shortest (m : Nat) (q : Int) : Scaled :=
  let top := decade m q
  match (List.range 17).findSome? fun (n : Nat) => gridHit? m q (top - n) with
  | some d => Scaled.normalized d.digits d.power
  | none => ⟨m, 0⟩

end DesignTokens.Decimal
