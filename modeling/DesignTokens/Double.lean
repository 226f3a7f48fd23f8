import DesignTokens.Scalar

/-!
# Doubles

A double is kept as its bit pattern: also a value that is no number has a sign, and the order for
sorting goes by the sign.  With a plus it sorts after all numbers, with a minus before them.

An operation on a value that is no number gives that value, and of two such values the first.  An
operation on numbers that has no result, such as zero times infinity, gives the value that is no
number with a minus.
-/

namespace DesignTokens

/-- A double of 64 bits. -/
structure Double where
  bits : UInt64
  deriving DecidableEq, Repr

namespace Double

def toFloat (x : Double) : Float := Float.ofBits x.bits

/-- The double with the value of a number; what is no number gets a plus. -/
def ofFloat (x : Float) : Double := ⟨x.toBits⟩

def isNaN (x : Double) : Bool := x.toFloat.isNaN

def negate (x : Double) : Double := ⟨x.bits ^^^ 0x8000000000000000⟩

/-- The value that is no number, with a plus. -/
def undefined : Double := ⟨0x7FF8000000000000⟩

/-- What an operation on numbers comes to. -/
def result (x : Float) : Double := if x.isNaN then undefined.negate else ofFloat x

def lift (op : Float → Float) (x : Double) : Double := if x.isNaN then x else result (op x.toFloat)

def combine (op : Float → Float → Float) (x y : Double) : Double :=
  if x.isNaN then x else if y.isNaN then y else result (op x.toFloat y.toFloat)

/-- The place of a double in the order that runs through the bit patterns. -/
def rank (x : Double) : Int :=
  let n := x.bits.toNat
  if n < Nat.pow 2 63 then n else (Nat.pow 2 63 : Int) - 1 - n

example : rank undefined.negate < rank (ofFloat (-1)) := by decide
example : rank (ofFloat 1) < rank undefined := by decide

end Double

instance : Scalar Double where
  add := Double.combine (· + ·)
  sub := Double.combine (· - ·)
  mul := Double.combine (· * ·)
  div := Double.combine (· / ·)
  neg := Double.negate
  le x y := x.toFloat ≤ y.toFloat
  lt x y := x.toFloat < y.toFloat
  ofScientific m s e := Double.ofFloat (OfScientific.ofScientific m s e)
  ofNat n := Double.ofFloat (Float.ofNat n)
  decidableLE x y := inferInstanceAs (Decidable (x.toFloat ≤ y.toFloat))
  decidableLT x y := inferInstanceAs (Decidable (x.toFloat < y.toFloat))
  sortsBefore x y := x.rank ≤ y.rank
  round := Double.lift Float.round
  ceil := Double.lift Float.ceil
  toNat x := x.toFloat.toUInt64.toNat
  toFixed places x := Decimal.fixed places x.toFloat

end DesignTokens
