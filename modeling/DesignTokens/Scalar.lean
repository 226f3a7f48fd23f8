import DesignTokens.Decimal.Text

/-!
# Scalars

Scores, weights and rates are computed by formulas that make sense over any ordered field.  They
are written once over `Scalar`: with `Double` they are what the program runs, and with `Rat`
they are exact, which is where their bounds and their monotonicity are laws.

Over `Double` a value may be no number at all.  Such a value is not below or equal to itself, which
is how `lesser` and `greater` tell it apart: it gives way to the other argument.
-/

namespace DesignTokens

/-- The operations that the scoring formulas use. -/
class Scalar (α : Type) extends Add α, Sub α, Mul α, Div α, Neg α, LE α, LT α, OfScientific α where
  ofNat : Nat → α
  decidableLE : ∀ a b : α, Decidable (a ≤ b)
  decidableLT : ∀ a b : α, Decidable (a < b)
  -- A total order for sorting, which also places values that are no numbers.
  sortsBefore : α → α → Bool
  -- The nearest integer, a half away from zero.
  round : α → α
  -- The least integer that is not below the argument.
  ceil : α → α
  -- The whole part as a natural number; zero for a negative value or for no number.
  toNat : α → Nat
  -- The text with a fixed number of places, a half going to the even neighbour.
  toFixed : Nat → α → String

namespace Scalar

variable {α : Type} [Scalar α]

instance (priority := low) instOfNat {n : Nat} : OfNat α n := ⟨Scalar.ofNat n⟩

instance (priority := low) instDecidableLE (a b : α) : Decidable (a ≤ b) := decidableLE a b

instance (priority := low) instDecidableLT (a b : α) : Decidable (a < b) := decidableLT a b

def lesser (a b : α) : α := if b < a then b else if a ≤ a then a else b

def greater (a b : α) : α := if a < b then b else if a ≤ a then a else b

def clamp (low high x : α) : α := if x < low then low else if high < x then high else x

def magnitude (x : α) : α := if x < 0 then -x else x

/-- The share `part / whole`, which is one when there is nothing to share. -/
def ratio (part whole : Nat) : α := if whole = 0 then 1 else ofNat part / ofNat whole

/-- Whether the first value sorts strictly before the second. -/
def precedes (a b : α) : Bool := !sortsBefore b a

end Scalar

/-! ## Exact rationals -/

/-- The nearest integer, a half away from zero. -/
def roundRat (x : Rat) : Rat :=
  if x < 0 then -((-x + 1 / 2).floor : Rat) else ((x + 1 / 2).floor : Rat)

instance : Scalar Rat where
  ofNat n := (n : Rat)
  decidableLE a b := inferInstanceAs (Decidable (a ≤ b))
  decidableLT a b := inferInstanceAs (Decidable (a < b))
  sortsBefore a b := decide (a ≤ b)
  round := roundRat
  ceil x := (x.ceil : Rat)
  toNat x := x.floor.toNat
  toFixed places x :=
    Decimal.signText (decide (x < 0)) ++ Decimal.fixedFraction places x.num.natAbs x.den

end DesignTokens
