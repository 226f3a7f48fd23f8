import DesignTokens.Audit.Coverage
import DesignTokens.Audit.Health
import DesignTokens.Audit.Pairing
import DesignTokens.Audit.Patterns
import DesignTokens.Audit.Scoping
import DesignTokens.Audit.Suggestions
import DesignTokens.Links.Report

/-!
# The audit of a store

All reports on one store, and the health score that sums them up.  An audit reads the store and
changes nothing.
-/

namespace DesignTokens

/-- The thresholds, weights and penalties of an audit. -/
structure AuditSettings (α : Type) where
  -- The least contrast ratio that does not fail.
  minRatio : α
  -- The least absolute lightness contrast that does not fail.
  minLightness : α
  driftKeywords : List String
  -- The greatest spread of red channels that is no drift.
  driftThreshold : Nat
  -- The least confidence of a suggestion.
  minConfidence : α
  weights : HealthWeights α
  penalties : Penalties α
  deriving DecidableEq, Repr

structure Audit (α : Type) where
  tokenCount : Nat
  structureReport : StructureReport α
  scoping : ScopingReport
  coverage : CoverageReport
  pairing : PairingReport α
  links : LinkReport
  patterns : PatternReport
  health : Health α
  suggestions : List (Suggestion α)
  deriving DecidableEq, Repr

section

variable {α : Type} [Scalar α]

def AuditSettings.standard : AuditSettings α where
  minRatio := 4.5
  minLightness := 60
  driftKeywords :=
    ["primary", "secondary", "accent", "success", "warning", "danger", "error", "info"]
  driftThreshold := 50
  minConfidence := 0.30
  weights := .standard
  penalties := .standard

namespace Audit

def errorCount (a : Audit α) : Nat :=
  a.scoping.errors + a.links.errorCount + a.patterns.errors

def warningCount (a : Audit α) : Nat :=
  a.scoping.warnings + a.links.warningCount + a.patterns.warnings

end Audit

def Store.audit {locked : String → Bool} (s : Store locked) (grading : Naming.Grading α)
    (thresholds : LinkThresholds) (settings : AuditSettings α) (check : ContrastChecker α) :
    Audit α :=
  let structureReport : StructureReport α := s.structureReport
  let scoping := s.scopingReport
  let coverage := s.coverage
  let pairing := s.pairing check settings.minRatio settings.minLightness
  let links := s.linkReport thresholds
  let patterns := s.antiPatterns settings.driftKeywords settings.driftThreshold
  let inputs : HealthInputs α :=
    { complianceRate := structureReport.complianceRate
      coverage := coverage.score
      scopingErrors := scoping.errors
      scopingWarnings := scoping.warnings
      contrastPassRate := pairing.passRate
      dependencyErrors := links.errorCount
      dependencyWarnings := links.warningCount
      patternErrors := patterns.errors
      patternWarnings := patterns.warnings }
  { tokenCount := s.size
    structureReport, scoping, coverage, pairing, links, patterns
    health := inputs.health settings.weights settings.penalties
    suggestions := s.suggestions grading settings.minConfidence }

end

end DesignTokens
