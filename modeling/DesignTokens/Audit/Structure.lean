import DesignTokens.Naming.Strict
import DesignTokens.Scalar
import DesignTokens.Store.Basic
import DesignTokens.Text.Ordered

/-!
# Naming compliance

A token is compliant when the strict reading accepts its path.
-/

namespace DesignTokens

/-- The compliance of a store, and how its compliant names spread over the axes. -/
structure StructureReport (α : Type) where
  total : Nat
  compliant : Nat
  nonCompliant : List String
  complianceRate : α
  byClass : List (String × Nat)
  byContext : List (String × Nat)
  byIntent : List (String × Nat)
  byState : List (String × Nat)
  deriving DecidableEq, Repr

namespace Store

variable {locked : String → Bool}

/-- The names that the compliant paths of a store spell. -/
def names (s : Store locked) : List Name := s.paths.filterMap Naming.strict?

def structureReport {α : Type} [Scalar α] (s : Store locked) : StructureReport α :=
  let names := s.names
  { total := s.size
    compliant := names.length
    nonCompliant := s.paths.filter fun p => (Naming.strict? p).isNone
    complianceRate := Scalar.ratio names.length s.size
    byClass := Text.histogram (names.map fun n => n.propertyClass.id)
    byContext := Text.histogram (names.map fun n => (n.context.map UxContext.id).getD "none")
    byIntent := Text.histogram (names.map fun n => n.intent.id)
    byState := Text.histogram (names.map fun n => n.effectiveState.id) }

end Store

end DesignTokens
