import DesignTokens.Scalar

/-!
# Teams and durations
-/

namespace DesignTokens

/-- The people who carry out a scenario. -/
structure Team where
  size : Nat
  hoursPerWeek : Nat
  deriving DecidableEq, Repr

/-- The working days that a team needs for so many hours, rounded up, with five days a week.  A
team or a week of size zero counts as one. -/
def Team.days (α : Type) [Scalar α] (t : Team) (effortHours : Nat) : Nat :=
  let people : α := Scalar.ofNat (max t.size 1)
  let hoursPerDay : α := Scalar.ofNat (max t.hoursPerWeek 1) / 5
  let days := Scalar.ceil (Scalar.ofNat effortHours / people / hoursPerDay)
  min (Scalar.toNat (Scalar.greater days 0)) (Nat.pow 2 32 - 1)

structure Teams where
  conservative : Team := ⟨2, 20⟩
  progressive : Team := ⟨2, 20⟩
  comprehensive : Team := ⟨3, 30⟩
  deriving DecidableEq, Repr

end DesignTokens
