import DesignTokens.Audit.Document
import DesignTokens.Migration.Plan
import DesignTokens.Migration.ReferenceSet
import DesignTokens.Token.Document

/-!
# Plans, runs and comparisons as JSON
-/

namespace DesignTokens

def RiskProfile.toJson (r : RiskProfile Double) : Json :=
  .record
    (("overall", .real r.overall) :: r.dimensions.map (fun (name, x) => (name, Json.real x)) ++
      [("level", .text r.level.id), ("factors", .texts r.factors)])

/-! ## Scenarios -/

def Check.toJson (c : Check) : Json := .text c.id

def Action.toJson (a : Action) : Json :=
  .record
    ([("id", .text a.id), ("type", .text a.kind.id), ("description", .text a.description),
        ("targets", .texts a.targets)] ++
      Json.listField "newPaths" .text a.newPaths ++ Json.optionalField "value" .text a.value ++
      Json.listField "validations" Check.toJson a.checks)

/-- An action, in which missing texts are empty and missing lists have no members. -/
def Action.ofJson? : Json.Decoder Action := fun j => do
  let names := ["id", "type", "description", "targets", "newPaths", "value", "validations"]
  let fields ← j.fields? names
  let id ← fields.orElse "id" "" Json.text?
  let kind ← fields.required "type" (Json.constant? ActionKind.ofId?)
  let description ← fields.orElse "description" "" Json.text?
  let targets ← fields.orElse "targets" [] (Json.items? Json.text?)
  let newPaths ← fields.orElse "newPaths" [] (Json.items? Json.text?)
  let value ← fields.optional "value" Json.text?
  let checks ← fields.orElse "validations" [] (Json.items? (Json.constant? Check.ofId?))
  pure { id, kind, description, targets, newPaths, value, checks }

def Phase.toJson (p : Phase) : Json :=
  .record
    [("id", .text p.id), ("name", .text p.name), ("description", .text p.description),
      ("actions", .list (p.actions.map Action.toJson)), ("effortHours", .ofNat p.effortHours),
      ("dependencies", .texts p.dependencies), ("rollbackPlan", .text p.rollbackPlan)]

def Scenario.fields (s : Scenario Double) : Json.Fields :=
  [("approach", .text s.approach.id), ("name", .text s.name),
    ("description", .text s.description), ("riskScore", .real s.risk),
    ("phases", .list (s.phases.map Phase.toJson)), ("estimatedEffort", .ofNat s.effortHours),
    ("estimatedDays", .ofNat s.days), ("successProbability", .real s.successProbability),
    ("benefits", .texts s.benefits), ("challenges", .texts s.challenges),
    ("prerequisites", .texts s.prerequisites)]

def Contributions.toJson (c : Contributions Double) : Json :=
  .record
    [("risk", .real c.risk), ("effort", .real c.effort), ("timeline", .real c.timeline),
      ("completeness", .real c.completeness)]

def ScenarioScore.toJson (s : ScenarioScore Double) : Json :=
  .record
    [("approach", .text s.approach.id), ("score", .real s.score),
      ("contributions", s.contributions.toJson)]

def Comparison.toJson (c : Comparison Double) : Json :=
  .record
    [("ranking", .list (c.ranking.map ScenarioScore.toJson)),
      ("recommended", .text c.recommended.id), ("rationale", .text c.rationale)]

def Plan.toJson (p : Plan Double) : Json :=
  .record
    [("audit", p.audit.toJson), ("risk", p.risk.toJson),
      ("scenarios", .list (p.scenarios.map fun s => .record s.fields)),
      ("comparison", .orNull Comparison.toJson p.comparison)]

/-! ## Runs -/

def RunOptions.ofJson? : Json.Decoder RunOptions := fun j => do
  let fields ← j.fields? ["dryRun", "validate", "stopOnError", "createSnapshot"]
  let d : RunOptions := {}
  let dryRun ← fields.orElse "dryRun" d.dryRun Json.bool?
  let validate ← fields.orElse "validate" d.validate Json.bool?
  let stopOnError ← fields.orElse "stopOnError" d.stopOnError Json.bool?
  let createSnapshot ← fields.orElse "createSnapshot" d.createSnapshot Json.bool?
  pure { dryRun, validate, stopOnError, createSnapshot }

def CheckResult.toJson (r : CheckResult) : Json :=
  .record
    ([("check", .text r.check.id), ("passed", .bool r.passed), ("severity", .text r.severity.id),
        ("message", .text r.message)] ++
      Json.listField "paths" .text r.offending)

def Operation.toJson (o : Operation) : Json :=
  .record
    ([("type", .text o.kind.id), ("path", .text o.path)] ++
      Json.optionalField "newPath" .text o.newPath ++ [("success", .bool o.succeeded)] ++
      Json.optionalField "error" (fun f => .text f.message) o.fault ++
      Json.optionalField "note" (fun r => .text r.message) o.remark ++
      Json.listField "referencesUpdated" .text o.updated)

def ActionRecord.toJson (a : ActionRecord) : Json :=
  .record
    ([("actionId", .text a.actionId), ("type", .text a.kind.id), ("status", .text a.status.id),
        ("operations", .list (a.operations.map Operation.toJson))] ++
      Json.listField "validation" CheckResult.toJson a.checks)

/-- A phase record; `timed` says whether the phase was run. -/
def PhaseRecord.toJson (p : PhaseRecord) : Json :=
  .record
    [("phaseId", .text p.phaseId), ("name", .text p.name), ("status", .text p.status.id),
      ("actions", .list (p.actions.map ActionRecord.toJson)),
      ("errors", .texts (p.errors.map RunError.message)),
      ("timed", .bool (p.status != .skipped))]

def Tally.toJson (t : Tally) : Json :=
  .record
    [("actionsCompleted", .ofNat t.completed), ("actionsFailed", .ofNat t.failed),
      ("actionsSkipped", .ofNat t.skipped), ("operationsSucceeded", .ofNat t.succeeded),
      ("operationsFailed", .ofNat t.unsuccessful), ("referencesUpdated", .ofNat t.rewritten)]

def Snapshot.toJson (s : Snapshot) : Json :=
  .record [("label", .text s.label), ("tokens", .list (s.tokens.map Token.toJson))]

/-- The record of a run, with its snapshot as given. -/
def Execution.fields (e : Execution) (snapshot : Snapshot → Json) : Json.Fields :=
  [("approach", .text e.approach.id), ("dryRun", .bool e.dryRun), ("status", .text e.status.id),
    ("phases", .list (e.phases.map PhaseRecord.toJson)), ("stats", e.tally.toJson)] ++
    Json.optionalField "snapshot" snapshot e.snapshot

def Execution.toJson (e : Execution) : Json := .record (e.fields Snapshot.toJson)

/-! ## Reference sets -/

def ReferenceComparison.toJson (c : ReferenceComparison Double) : Json :=
  let contexts (xs : List UxContext) : Json := .texts (xs.map UxContext.id)
  .record
    [("similarity", .real c.similarity), ("structureSimilarity", .real c.structureSimilarity),
      ("namingSimilarity", .real c.namingSimilarity), ("contextOverlap", .real c.contextOverlap),
      ("currentCompliance", .real c.currentReport.complianceRate),
      ("referenceCompliance", .real c.referenceReport.complianceRate),
      ("sharedContexts", contexts c.shared), ("missingContexts", contexts c.missing),
      ("extraContexts", contexts c.extra), ("insights", .texts c.insights),
      ("recommendations", .texts c.recommendations)]

end DesignTokens
