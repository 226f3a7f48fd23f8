import DesignTokens.Json.Decode
import DesignTokens.Migration.Plan
import DesignTokens.Naming.Document

/-!
# Settings as documents

Settings have four sections.  A missing section, or a missing field of a section, has its standard
content; only a team must be given whole.
-/

namespace DesignTokens

namespace LinkThresholds

def toJson (t : LinkThresholds) : Json :=
  .record
    [("deep_chain_threshold", .ofNat t.deepChain),
      ("orphan_min_store_size", .ofNat t.orphanStoreSize)]

def fieldNames : List String := ["deep_chain_threshold", "orphan_min_store_size"]

def ofJson? : Json.Decoder LinkThresholds := fun j => do
  let fields ← j.fields? fieldNames
  let d : LinkThresholds := {}
  let deepChain ← fields.orElse "deep_chain_threshold" d.deepChain Json.count?
  let orphanStoreSize ← fields.orElse "orphan_min_store_size" d.orphanStoreSize Json.count?
  pure { deepChain, orphanStoreSize }

end LinkThresholds

namespace HealthWeights

def toJson (w : HealthWeights Double) : Json :=
  .record
    [("naming", .real w.naming), ("coverage", .real w.coverage),
      ("scoping_errors", .real w.scopingErrors), ("scoping_warnings", .real w.scopingWarnings),
      ("contrast", .real w.contrast), ("dependencies", .real w.dependencies),
      ("anti_patterns", .real w.patterns)]

def fieldNames : List String :=
  ["naming", "coverage", "scoping_errors", "scoping_warnings", "contrast", "dependencies",
    "anti_patterns"]

def ofJson? : Json.Decoder (HealthWeights Double) := fun j => do
  let fields ← j.fields? fieldNames
  let d : HealthWeights Double := standard
  let naming ← fields.orElse "naming" d.naming Json.real?
  let coverage ← fields.orElse "coverage" d.coverage Json.real?
  let scopingErrors ← fields.orElse "scoping_errors" d.scopingErrors Json.real?
  let scopingWarnings ← fields.orElse "scoping_warnings" d.scopingWarnings Json.real?
  let contrast ← fields.orElse "contrast" d.contrast Json.real?
  let dependencies ← fields.orElse "dependencies" d.dependencies Json.real?
  let patterns ← fields.orElse "anti_patterns" d.patterns Json.real?
  pure { naming, coverage, scopingErrors, scopingWarnings, contrast, dependencies, patterns }

end HealthWeights

namespace Penalties

def toJson (p : Penalties Double) : Json :=
  .record
    [("scoping_error", .real p.scopingError), ("scoping_error_cap", .real p.scopingErrorCap),
      ("scoping_warning", .real p.scopingWarning),
      ("scoping_warning_cap", .real p.scopingWarningCap),
      ("dependency_error", .real p.dependencyError),
      ("dependency_warning", .real p.dependencyWarning),
      ("anti_pattern_error", .real p.patternError),
      ("anti_pattern_warning", .real p.patternWarning)]

def fieldNames : List String :=
  ["scoping_error", "scoping_error_cap", "scoping_warning", "scoping_warning_cap",
    "dependency_error", "dependency_warning", "anti_pattern_error", "anti_pattern_warning"]

def ofJson? : Json.Decoder (Penalties Double) := fun j => do
  let fields ← j.fields? fieldNames
  let d : Penalties Double := standard
  let scopingError ← fields.orElse "scoping_error" d.scopingError Json.real?
  let scopingErrorCap ← fields.orElse "scoping_error_cap" d.scopingErrorCap Json.real?
  let scopingWarning ← fields.orElse "scoping_warning" d.scopingWarning Json.real?
  let scopingWarningCap ← fields.orElse "scoping_warning_cap" d.scopingWarningCap Json.real?
  let dependencyError ← fields.orElse "dependency_error" d.dependencyError Json.real?
  let dependencyWarning ← fields.orElse "dependency_warning" d.dependencyWarning Json.real?
  let patternError ← fields.orElse "anti_pattern_error" d.patternError Json.real?
  let patternWarning ← fields.orElse "anti_pattern_warning" d.patternWarning Json.real?
  pure
    { scopingError, scopingErrorCap, scopingWarning, scopingWarningCap, dependencyError,
      dependencyWarning, patternError, patternWarning }

end Penalties

namespace AuditSettings

def toJson (a : AuditSettings Double) : Json :=
  .record
    [("wcag_min_ratio", .real a.minRatio), ("apca_min_lc", .real a.minLightness),
      ("drift_keywords", .texts a.driftKeywords), ("drift_red_threshold", .ofNat a.driftThreshold),
      ("suggestion_min_confidence", .real a.minConfidence), ("weights", a.weights.toJson),
      ("penalties", a.penalties.toJson)]

def fieldNames : List String :=
  ["wcag_min_ratio", "apca_min_lc", "drift_keywords", "drift_red_threshold",
    "suggestion_min_confidence", "weights", "penalties"]

def ofJson? : Json.Decoder (AuditSettings Double) := fun j => do
  let fields ← j.fields? fieldNames
  let d : AuditSettings Double := standard
  let minRatio ← fields.orElse "wcag_min_ratio" d.minRatio Json.real?
  let minLightness ← fields.orElse "apca_min_lc" d.minLightness Json.real?
  let driftKeywords ← fields.orElse "drift_keywords" d.driftKeywords (Json.items? Json.text?)
  let driftThreshold ← fields.orElse "drift_red_threshold" d.driftThreshold (Json.below? 256)
  let minConfidence ← fields.orElse "suggestion_min_confidence" d.minConfidence Json.real?
  let weights ← fields.orElse "weights" d.weights HealthWeights.ofJson?
  let penalties ← fields.orElse "penalties" d.penalties Penalties.ofJson?
  pure
    { minRatio, minLightness, driftKeywords, driftThreshold, minConfidence, weights, penalties }

end AuditSettings

namespace Team

def toJson (t : Team) : Json :=
  .record [("teamSize", .ofNat t.size), ("hoursPerWeek", .ofNat t.hoursPerWeek)]

def fieldNames : List String := ["teamSize", "hoursPerWeek"]

def ofJson? : Json.Decoder Team := fun j => do
  let fields ← j.fields? fieldNames
  let size ← fields.required "teamSize" (Json.below? (Nat.pow 2 32))
  let hoursPerWeek ← fields.required "hoursPerWeek" (Json.below? (Nat.pow 2 32))
  pure { size, hoursPerWeek }

end Team

namespace Teams

def toJson (t : Teams) : Json :=
  .record
    [("conservative", t.conservative.toJson), ("progressive", t.progressive.toJson),
      ("comprehensive", t.comprehensive.toJson)]

def fieldNames : List String := ["conservative", "progressive", "comprehensive"]

def ofJson? : Json.Decoder Teams := fun j => do
  let fields ← j.fields? fieldNames
  let d : Teams := {}
  let conservative ← fields.orElse "conservative" d.conservative Team.ofJson?
  let progressive ← fields.orElse "progressive" d.progressive Team.ofJson?
  let comprehensive ← fields.orElse "comprehensive" d.comprehensive Team.ofJson?
  pure { conservative, progressive, comprehensive }

end Teams

namespace ComparisonWeights

def toJson (w : ComparisonWeights Double) : Json :=
  .record
    [("risk", .real w.risk), ("effort", .real w.effort), ("timeline", .real w.timeline),
      ("completeness", .real w.completeness)]

def fieldNames : List String := ["risk", "effort", "timeline", "completeness"]

def ofJson? : Json.Decoder (ComparisonWeights Double) := fun j => do
  let fields ← j.fields? fieldNames
  let d : ComparisonWeights Double := standard
  let risk ← fields.orElse "risk" d.risk Json.real?
  let effort ← fields.orElse "effort" d.effort Json.real?
  let timeline ← fields.orElse "timeline" d.timeline Json.real?
  let completeness ← fields.orElse "completeness" d.completeness Json.real?
  pure { risk, effort, timeline, completeness }

end ComparisonWeights

namespace MigrationSettings

def toJson (m : MigrationSettings Double) : Json :=
  .record
    [("low_risk_rename_confidence", .real m.safeRename), ("capacities", m.teams.toJson),
      ("comparator", m.weights.toJson)]

def fieldNames : List String := ["low_risk_rename_confidence", "capacities", "comparator"]

def ofJson? : Json.Decoder (MigrationSettings Double) := fun j => do
  let fields ← j.fields? fieldNames
  let d : MigrationSettings Double := standard
  let safeRename ← fields.orElse "low_risk_rename_confidence" d.safeRename Json.real?
  let teams ← fields.orElse "capacities" d.teams Teams.ofJson?
  let weights ← fields.orElse "comparator" d.weights ComparisonWeights.ofJson?
  pure { safeRename, teams, weights }

end MigrationSettings

namespace Settings

def toJson (c : Settings Double) : Json :=
  .record
    [("lenient", c.grading.toJson), ("graph", c.links.toJson), ("audit", c.audit.toJson),
      ("migration", c.migration.toJson)]

/-- A section; one that is `null` counts as missing. -/
def section? {α : Type} (fields : Json.Fields) (name : String) (standard : α)
    (decode : Json.Decoder α) : Option α :=
  (fields.optional name decode).map fun content => content.getD standard

def fieldNames : List String := ["lenient", "graph", "audit", "migration"]

def ofJson? : Json.Decoder (Settings Double) := fun j => do
  let fields ← j.fields? fieldNames
  let d : Settings Double := standard
  let grading ← section? fields "lenient" d.grading Naming.Grading.ofJson?
  let links ← section? fields "graph" d.links LinkThresholds.ofJson?
  let audit ← section? fields "audit" d.audit AuditSettings.ofJson?
  let migration ← section? fields "migration" d.migration MigrationSettings.ofJson?
  pure { grading, links, audit, migration }

end Settings

end DesignTokens
