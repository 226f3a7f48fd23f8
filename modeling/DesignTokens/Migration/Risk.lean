import DesignTokens.Audit.Result

/-!
# Migration risk

Five dimensions of risk, each from zero to a hundred, and their weighted sum, which is the base
risk of every scenario.
-/

namespace DesignTokens

inductive RiskLevel where
  | low
  | medium
  | high
  | critical
  deriving DecidableEq, Repr

def RiskLevel.id : RiskLevel → String
  | low => "low"
  | medium => "medium"
  | high => "high"
  | critical => "critical"

section

variable {α : Type} [Scalar α]

def RiskLevel.ofScore (score : α) : RiskLevel :=
  if score < 25 then .low
  else if score < 50 then .medium
  else if score < 75 then .high
  else .critical

structure RiskProfile (α : Type) where
  overall : α
  naming : α
  dependency : α
  coverage : α
  accessibility : α
  scale : α
  deriving DecidableEq, Repr

namespace RiskProfile

def level (r : RiskProfile α) : RiskLevel := .ofScore r.overall

def dimensions (r : RiskProfile α) : List (String × α) :=
  [("naming", r.naming), ("dependency", r.dependency), ("coverage", r.coverage),
    ("accessibility", r.accessibility), ("scale", r.scale)]

/-- A remark on each dimension that is at least half of what it could be. -/
def factors (r : RiskProfile α) : List String :=
  (r.dimensions.filter fun (_, score) => decide ((50 : α) ≤ score)).map fun (name, score) =>
    s!"{name} risk is {Scalar.toFixed 0 score}/100"

/-- The share that is missing to the whole, in percent. -/
def shortfall (share : α) : α := Scalar.clamp 0 1 (1 - share) * 100

def ofAudit (a : Audit α) : RiskProfile α :=
  let naming := shortfall a.structureReport.complianceRate
  let dependency := Scalar.lesser
    (15 * Scalar.ofNat a.links.errorCount + 5 * Scalar.ofNat a.links.warningCount +
      5 * Scalar.ofNat a.links.maxDepth) 100
  let coverage := shortfall a.coverage.score
  let accessibility := shortfall a.pairing.passRate
  let scale := Scalar.lesser (Scalar.ofNat a.tokenCount / 10) 100
  { overall :=
      0.30 * naming + 0.25 * dependency + 0.15 * coverage + 0.15 * accessibility + 0.15 * scale
    naming, dependency, coverage, accessibility, scale }

end RiskProfile

end

end DesignTokens
