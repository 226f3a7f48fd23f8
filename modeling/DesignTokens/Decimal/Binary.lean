/-!
# The exact value of a double

A finite double is a sign, a natural significand and a power of two.  Everything that writes
numbers works on this exact value, so that no digit depends on a rounding of its own.
-/

namespace DesignTokens.Decimal

/-- What a double denotes. -/
inductive Binary where
  | notANumber
  | infinite (negative : Bool)
  -- The number `± significand · 2 ^ exponent`.
  | finite (negative : Bool) (significand : Nat) (exponent : Int)
  deriving DecidableEq, Repr

namespace Binary

/-- The sign, exponent and fraction fields of a double, read by the rules of IEEE 754. -/
def ofBits (bits : Nat) : Binary :=
  let unit := Nat.pow 2 52
  let negative := bits / Nat.pow 2 63 % 2 == 1
  let field := bits / unit % 2048
  let fraction := bits % unit
  if field = 2047 then
    if fraction = 0 then .infinite negative else .notANumber
  else if field = 0 then .finite negative fraction (-1074)
  else .finite negative (fraction + unit) ((field : Int) - 1075)

def ofFloat (x : Float) : Binary := ofBits x.toBits.toNat

example : ofBits 0x3FF0000000000000 = .finite false (Nat.pow 2 52) (-52) := by decide
example : ofBits 0x8000000000000000 = .finite true 0 (-1074) := by decide
example : ofBits 0xFFF0000000000000 = .infinite true := by decide

end Binary

/-- The numerator and denominator of `n · 2 ^ e`. -/
def binaryFraction (n : Nat) (e : Int) : Nat × Nat := (n * Nat.pow 2 e.toNat, Nat.pow 2 (-e).toNat)

/-- The numerator and denominator of `n · 10 ^ e`. -/
def decimalFraction (n : Nat) (e : Int) : Nat × Nat :=
  (n * Nat.pow 10 e.toNat, Nat.pow 10 (-e).toNat)

/-- The order of two fractions with positive denominators. -/
def compareFractions (a b : Nat × Nat) : Ordering := compare (a.1 * b.2) (b.1 * a.2)

end DesignTokens.Decimal
