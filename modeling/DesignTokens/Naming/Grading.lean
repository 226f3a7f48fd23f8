import DesignTokens.Naming.Lenient
import DesignTokens.Scalar

/-!
# Confidence of a reading

A strict reading is certain.  Any other reading starts from a base confidence and loses some for
every alias, for every skipped segment, and once more for every alias off the property class.  The
result has three places and lies between a floor and one.

A floor above one leaves no confidence to give.  `Grading.isSound` says that the floor is usable,
and `Grading.refuses` names the paths whose reading cannot be graded.
-/

namespace DesignTokens.Naming

structure Grading (α : Type) where
  base : α
  aliasPenalty : α
  skipPenalty : α
  otherAliasPenalty : α
  floor : α
  deriving DecidableEq, Repr

namespace Grading

variable {α : Type} [Scalar α]

def standard : Grading α := ⟨0.95, 0.05, 0.08, 0.03, 0.30⟩

/-- Whether there is a confidence between the floor and one. -/
def isSound (g : Grading α) : Bool := decide (g.floor ≤ 1)

/-- The confidence before it is rounded and bounded. -/
def raw (g : Grading α) (aliases skipped others : Nat) : α :=
  g.base - g.aliasPenalty * Scalar.ofNat aliases - g.skipPenalty * Scalar.ofNat skipped -
    g.otherAliasPenalty * Scalar.ofNat others

/-- The confidence of a reading with so many aliases, skipped segments and aliases off the
property class. -/
def confidence (g : Grading α) (aliases skipped others : Nat) : α :=
  Scalar.clamp g.floor 1 (Scalar.round (g.raw aliases skipped others * 1000) / 1000)

def grade (g : Grading α) (r : Reading) : α :=
  if r.strategy = .strict then 1
  else g.confidence r.aliases.length r.skipped.length r.otherAliases

/-- Whether the reading of a path needs a confidence that cannot be given. -/
def refuses (g : Grading α) (path : String) : Bool :=
  !g.isSound && (read? path).any fun r => r.strategy ≠ .strict

end Grading

end DesignTokens.Naming
