import DesignTokens.Migration.Action
import DesignTokens.Scalar

/-!
# Comparing scenarios

Each scenario is scored by a weighted sum of four shares: how low its risk is, how little effort
and how few days it takes among the scenarios compared, and how likely it succeeds.  The scenarios
are ranked by score, and equal scores keep their order.
-/

namespace DesignTokens

/-- How much each dimension of a comparison counts. -/
structure ComparisonWeights (α : Type) where
  risk : α
  effort : α
  timeline : α
  completeness : α
  deriving DecidableEq, Repr

structure Contributions (α : Type) where
  risk : α
  effort : α
  timeline : α
  completeness : α
  deriving DecidableEq, Repr

structure ScenarioScore (α : Type) where
  approach : Approach
  score : α
  contributions : Contributions α
  deriving DecidableEq, Repr

/-- Scenarios by score, the best first. -/
structure Comparison (α : Type) where
  best : ScenarioScore α
  others : List (ScenarioScore α)
  deriving DecidableEq, Repr

section

variable {α : Type} [Scalar α]

def ComparisonWeights.standard : ComparisonWeights α := ⟨0.35, 0.25, 0.2, 0.2⟩

namespace Contributions

def total (c : Contributions α) : α := c.risk + c.effort + c.timeline + c.completeness

/-- The dimensions by contribution, the largest first. -/
def ranked (c : Contributions α) : List (String × α) :=
  [("risk", c.risk), ("effort", c.effort), ("timeline", c.timeline),
    ("completeness", c.completeness)].mergeSort fun a b => Scalar.sortsBefore b.2 a.2

end Contributions

/-- How far a cost stays below the greatest one, as a share. -/
def saving (cost greatest : α) : α :=
  if greatest ≤ 0 then 1 else Scalar.clamp 0 1 (1 - cost / greatest)

/-- The score of a scenario among scenarios of which the greatest effort and duration are known. -/
def Scenario.score (s : Scenario α) (w : ComparisonWeights α) (maxEffort maxDays : Nat) :
    ScenarioScore α :=
  let contributions : Contributions α :=
    { risk := w.risk * saving s.risk 100
      effort := w.effort * saving (Scalar.ofNat s.effortHours) (Scalar.ofNat maxEffort)
      timeline := w.timeline * saving (Scalar.ofNat s.days) (Scalar.ofNat maxDays)
      completeness := w.completeness * Scalar.clamp 0 1 s.successProbability }
  { approach := s.approach, score := contributions.total, contributions }

/-- The scores of some scenarios, the best first; equal scores keep their order. -/
def rankScenarios (scenarios : List (Scenario α)) (w : ComparisonWeights α) :
    List (ScenarioScore α) :=
  let maxEffort := (scenarios.map Scenario.effortHours).foldl max 0
  let maxDays := (scenarios.map Scenario.days).foldl max 0
  (scenarios.map fun s => s.score w maxEffort maxDays).mergeSort fun a b =>
    Scalar.sortsBefore b.score a.score

def compareScenarios? (scenarios : List (Scenario α)) (w : ComparisonWeights α) :
    Option (Comparison α) :=
  match rankScenarios scenarios w with
  | [] => none
  | best :: others => some ⟨best, others⟩

namespace Comparison

def ranking (c : Comparison α) : List (ScenarioScore α) := c.best :: c.others

def recommended (c : Comparison α) : Approach := c.best.approach

def rationale (c : Comparison α) : String :=
  let two (x : α) : String := Scalar.toFixed 2 x
  let leaders := (c.best.contributions.ranked.take 2).map fun (name, x) => s!"{name} ({two x})"
  let lead := s!"{c.best.approach.id} scores {two c.best.score}, led by " ++
    " and ".intercalate leaders
  match c.others with
  | [] => lead
  | next :: _ =>
    s!"{lead}; {two (c.best.score - next.score)} ahead of {next.approach.id}"

end Comparison

end

end DesignTokens
