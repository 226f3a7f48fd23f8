import DesignTokens.Scalar

/-!
# The health score

Every term is brought to the scale from zero to a hundred, and the score is their weighted sum,
rounded and kept on that scale.
-/

namespace DesignTokens

/-- The findings that the score is made from. -/
structure HealthInputs (α : Type) where
  complianceRate : α
  coverage : α
  scopingErrors : Nat
  scopingWarnings : Nat
  contrastPassRate : α
  dependencyErrors : Nat
  dependencyWarnings : Nat
  patternErrors : Nat
  patternWarnings : Nat
  deriving DecidableEq, Repr

structure HealthWeights (α : Type) where
  naming : α
  coverage : α
  scopingErrors : α
  scopingWarnings : α
  contrast : α
  dependencies : α
  patterns : α
  deriving DecidableEq, Repr

/-- The points that each finding costs, and the most that scoping findings can cost. -/
structure Penalties (α : Type) where
  scopingError : α
  scopingErrorCap : α
  scopingWarning : α
  scopingWarningCap : α
  dependencyError : α
  dependencyWarning : α
  patternError : α
  patternWarning : α
  deriving DecidableEq, Repr

structure HealthTerms (α : Type) where
  naming : α
  coverage : α
  scopingErrors : α
  scopingWarnings : α
  contrast : α
  dependencies : α
  patterns : α
  deriving DecidableEq, Repr

structure Health (α : Type) where
  score : Nat
  terms : HealthTerms α
  deriving DecidableEq, Repr

section

variable {α : Type} [Scalar α]

def HealthWeights.standard : HealthWeights α := ⟨0.20, 0.15, 0.20, 0.08, 0.15, 0.12, 0.10⟩

def HealthWeights.total (w : HealthWeights α) : α :=
  w.naming + w.coverage + w.scopingErrors + w.scopingWarnings + w.contrast + w.dependencies +
    w.patterns

def Penalties.standard : Penalties α := ⟨5, 20, 2, 8, 20, 5, 15, 5⟩

/-- A share on the scale from zero to a hundred. -/
def percentTerm (share : α) : α := Scalar.clamp 0 1 share * 100

/-- What is left of a cap, in percent, after so many findings; a cap that is not positive has
nothing to lose. -/
def cappedTerm (count : Nat) (points cap : α) : α :=
  if cap ≤ 0 then 100
  else (cap - Scalar.lesser (Scalar.ofNat count * points) cap) / cap * 100

/-- What is left of a hundred points. -/
def remainingTerm (points : α) : α := 100 - Scalar.lesser points 100

def HealthInputs.terms (i : HealthInputs α) (p : Penalties α) : HealthTerms α where
  naming := percentTerm i.complianceRate
  coverage := percentTerm i.coverage
  scopingErrors := cappedTerm i.scopingErrors p.scopingError p.scopingErrorCap
  scopingWarnings := cappedTerm i.scopingWarnings p.scopingWarning p.scopingWarningCap
  contrast := percentTerm i.contrastPassRate
  dependencies := remainingTerm
    (Scalar.ofNat i.dependencyErrors * p.dependencyError +
      Scalar.ofNat i.dependencyWarnings * p.dependencyWarning)
  patterns := remainingTerm
    (Scalar.ofNat i.patternErrors * p.patternError +
      Scalar.ofNat i.patternWarnings * p.patternWarning)

def HealthTerms.weighted (t : HealthTerms α) (w : HealthWeights α) : α :=
  t.naming * w.naming + t.coverage * w.coverage + t.scopingErrors * w.scopingErrors +
    t.scopingWarnings * w.scopingWarnings + t.contrast * w.contrast +
    t.dependencies * w.dependencies + t.patterns * w.patterns

def HealthInputs.health (i : HealthInputs α) (w : HealthWeights α) (p : Penalties α) : Health α :=
  let terms := i.terms p
  { score := Scalar.toNat (Scalar.clamp 0 100 (Scalar.round (terms.weighted w))), terms }

end

end DesignTokens
