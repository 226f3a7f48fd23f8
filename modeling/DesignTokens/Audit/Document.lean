import DesignTokens.Audit.Result
import DesignTokens.Naming.Document

/-!
# Audits as JSON
-/

namespace DesignTokens

def countsJson (counts : List (String × Nat)) : Json :=
  .record (counts.map fun (key, n) => (key, .ofNat n))

def StructureReport.toJson (r : StructureReport Double) : Json :=
  .record
    [("totalTokens", .ofNat r.total), ("compliantTokens", .ofNat r.compliant),
      ("nonCompliant", .texts r.nonCompliant), ("complianceRate", .real r.complianceRate),
      ("byPropertyClass", countsJson r.byClass), ("byContext", countsJson r.byContext),
      ("byIntent", countsJson r.byIntent), ("byState", countsJson r.byState)]

def ScopingIssue.toJson (i : ScopingIssue) : Json :=
  .record
    [("severity", .text i.severity.id), ("type", .text i.id), ("path", .text i.path),
      ("message", .text i.message)]

def ScopingReport.toJson (r : ScopingReport) : Json :=
  .record
    [("issues", .list (r.issues.map ScopingIssue.toJson)), ("errors", .ofNat r.errors),
      ("warnings", .ofNat r.warnings)]

/-! ## Coverage -/

def CoverageCell.toJson (c : CoverageCell) : Json :=
  .record
    [("context", .text c.context.id), ("propertyClass", .text c.propertyClass.id),
      ("required", .bool c.required), ("present", .bool c.present)]

def CoverageCell.gapJson (c : CoverageCell) : Json :=
  .record
    [("context", .text c.context.id), ("propertyClass", .text c.propertyClass.id),
      ("suggestedPath", .text c.suggestedPath)]

def ContextCoverage.toJson (c : ContextCoverage Double) : Json :=
  .record
    [("context", .text c.context.id), ("required", .ofNat c.required),
      ("present", .ofNat c.present), ("score", .real c.score)]

/-- A coverage report without its matrix. -/
def CoverageReport.summaryFields (r : CoverageReport) : Json.Fields :=
  [("contexts", .list (r.contexts.map ContextCoverage.toJson)),
    ("gaps", .list (r.gaps.map CoverageCell.gapJson)), ("requiredTotal", .ofNat r.requiredTotal),
    ("requiredPresent", .ofNat r.requiredPresent), ("score", .real r.score)]

def CoverageReport.toJson (r : CoverageReport) : Json :=
  .record (("cells", .list (r.cells.map CoverageCell.toJson)) :: r.summaryFields)

/-! ## Contrast -/

def Contrast.toJson (c : Contrast Double) : Json :=
  .record
    [("wcagRatio", .real c.ratio),
      ("wcag", .record
        [("aa", .bool c.meetsAA), ("aaLarge", .bool c.meetsAALarge), ("aaa", .bool c.meetsAAA)]),
      ("apcaLc", .real c.lightness), ("apcaLevel", .text c.usage)]

def ContrastPair.toJson (p : ContrastPair Double) : Json :=
  .record
    [("group", .text p.group), ("background", .text p.background),
      ("foreground", .text p.foreground),
      ("backgroundColor", .orNull .text p.backgroundColor),
      ("foregroundColor", .orNull .text p.foregroundColor), ("computable", .bool p.computable),
      ("wcagRatio", .orNull (fun c => .real c.ratio) p.contrast),
      ("apcaLc", .orNull (fun c => .real c.lightness) p.contrast),
      ("wcagFail", .bool p.ratioTooLow), ("apcaFail", .bool p.lightnessTooLow)]

def PairingReport.toJson (r : PairingReport Double) : Json :=
  .record
    [("pairs", .list (r.pairs.map ContrastPair.toJson)), ("totalPairs", .ofNat r.total),
      ("computablePairs", .ofNat r.computable), ("wcagFailures", .ofNat r.ratioFailures),
      ("apcaFailures", .ofNat r.lightnessFailures), ("failingPairs", .ofNat r.failing),
      ("unpaired", .texts r.unpaired), ("passRate", .real r.passRate)]

/-! ## References -/

def NodeReport.toJson (n : NodeReport) : Json :=
  .record
    [("path", .text n.path), ("kind", .text n.role.id), ("outRefs", .texts n.references),
      ("inRefs", .texts n.referrers), ("depth", .ofNat n.depth), ("isolated", .bool n.isolated)]

def Link.toJson (l : Link) : Json :=
  .record [("from", .text l.source), ("to", .text l.target), ("resolved", .bool l.resolved)]

def LinkDefect.toJson (d : LinkDefect) : Json :=
  .record
    [("severity", .text d.severity.id), ("type", .text d.id), ("message", .text d.message),
      ("paths", .texts d.paths)]

def LinkReport.metricsJson (r : LinkReport) : Json :=
  .record
    [("totalTokens", .ofNat r.nodes.length), ("primitiveCount", .ofNat (r.countRole .primitive)),
      ("semanticCount", .ofNat (r.countRole .semantic)),
      ("unknownCount", .ofNat (r.countRole .unknown)), ("maxDepth", .ofNat r.maxDepth),
      ("avgDepth", .real r.averageDepth), ("isolatedCount", .ofNat r.isolatedCount),
      ("totalEdges", .ofNat r.links.length), ("unresolvedEdges", .ofNat r.unresolvedCount)]

def LinkReport.fields (r : LinkReport) : Json.Fields :=
  [("nodes", .list (r.nodes.map NodeReport.toJson)), ("edges", .list (r.links.map Link.toJson)),
    ("issues", .list (r.defects.map LinkDefect.toJson)), ("metrics", r.metricsJson)]

/-! ## Patterns, health and suggestions -/

def AntiPattern.toJson (p : AntiPattern) : Json :=
  .record
    [("type", .text p.id), ("severity", .text p.severity.id), ("paths", .texts p.paths),
      ("message", .text p.message), ("suggestion", .text p.suggestion)]

def PatternReport.toJson (r : PatternReport) : Json :=
  .record
    [("patterns", .list (r.patterns.map AntiPattern.toJson)), ("errors", .ofNat r.errors),
      ("warnings", .ofNat r.warnings)]

def HealthTerms.toJson (t : HealthTerms Double) : Json :=
  .record
    [("naming", .real t.naming), ("coverage", .real t.coverage),
      ("scopingErrors", .real t.scopingErrors), ("scopingWarnings", .real t.scopingWarnings),
      ("contrast", .real t.contrast), ("dependencies", .real t.dependencies),
      ("antiPatterns", .real t.patterns)]

def Health.fields (h : Health Double) : Json.Fields :=
  [("score", .ofNat h.score), ("breakdown", h.terms.toJson)]

def Suggestion.toJson (s : Suggestion Double) : Json :=
  .record
    [("from", .text s.source), ("to", .text s.target), ("confidence", .real s.confidence),
      ("aliases", .list (s.aliases.map Naming.AliasUse.toJson)),
      ("skippedPrefix", .texts s.skipped), ("unrecognized", .texts s.unrecognized),
      ("reason", .text s.reason)]

/-- The sections of an audit, with the coverage section as given. -/
def Audit.sections (a : Audit Double) (coverage : Json) : Json.Fields :=
  [("tokenCount", .ofNat a.tokenCount), ("structure", a.structureReport.toJson),
    ("scoping", a.scoping.toJson), ("coverage", coverage), ("accessibility", a.pairing.toJson),
    ("dependencies", .record a.links.fields), ("antiPatterns", a.patterns.toJson),
    ("health", .record a.health.fields),
    ("suggestions", .list (a.suggestions.map Suggestion.toJson))]

def Audit.toJson (a : Audit Double) : Json := .record (a.sections a.coverage.toJson)

end DesignTokens
