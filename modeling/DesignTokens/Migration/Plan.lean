import DesignTokens.Migration.Execution
import DesignTokens.Migration.Risk
import DesignTokens.Migration.Scenarios

/-!
# Planning and migrating

A plan is an audit with its risk, the three scenarios and their comparison.  A migration runs one
of them on the store that was planned.

`ensureGradable` stands before everything that grades readings: when the floor of the grading is above one,
a store with a path that is read but not canonical is refused.
-/

namespace DesignTokens

structure Settings (α : Type) where
  grading : Naming.Grading α
  links : LinkThresholds
  audit : AuditSettings α
  migration : MigrationSettings α
  deriving DecidableEq, Repr

structure Plan (α : Type) where
  audit : Audit α
  risk : RiskProfile α
  scenarios : List (Scenario α)
  comparison : Option (Comparison α)
  deriving DecidableEq, Repr

/-- A path whose reading has no confidence, because the floor is above one. -/
structure Ungradable where
  path : String
  deriving DecidableEq, Repr

section

variable {α : Type} [Scalar α]

def Settings.standard : Settings α := ⟨.standard, {}, .standard, .standard⟩

def Naming.Grading.ensureGradable (g : Naming.Grading α) (paths : List String) : Except Ungradable Unit :=
  match paths.find? g.refuses with
  | some path => .error ⟨path⟩
  | none => .ok ()

namespace Plan

def scenario? (p : Plan α) (a : Approach) : Option (Scenario α) :=
  p.scenarios.find? fun s => s.approach = a

/-- The scenario that the comparison recommends. -/
def recommended? (p : Plan α) : Option (Scenario α) :=
  p.comparison.bind fun c => p.scenario? c.recommended

end Plan

namespace Store

variable {locked : String → Bool}

def auditWith (s : Store locked) (c : Settings α) (check : ContrastChecker α) : Audit α :=
  s.audit c.grading c.links c.audit check

def plan (s : Store locked) (c : Settings α) (check : ContrastChecker α) : Plan α :=
  let audit := s.auditWith c check
  let risk := RiskProfile.ofAudit audit
  let scenarios := scenariosFor audit risk.overall c.migration
  { audit, risk, scenarios, comparison := compareScenarios? scenarios c.migration.weights }

def plannedScenario (s : Store locked) (c : Settings α) (check : ContrastChecker α)
    (a : Approach) : Scenario α :=
  let audit := s.auditWith c check
  scenarioFor (Findings.ofAudit audit c.migration.safeRename) (RiskProfile.ofAudit audit).overall
    c.migration.teams a

/-- Plans a store and runs the scenario of an approach on it. -/
def migrate (s : Store locked) (c : Settings α) (check : ContrastChecker α) (a : Approach)
    (o : RunOptions) : Store locked × Execution :=
  s.execute o a (s.plannedScenario c check a).phases

/-! ## With the grading checked -/

/-- The audit of a store, if all its paths can be graded. -/
def audit? (s : Store locked) (c : Settings α) (check : ContrastChecker α) :
    Except Ungradable (Audit α) := do
  c.grading.ensureGradable s.paths
  pure (s.auditWith c check)

def plan? (s : Store locked) (c : Settings α) (check : ContrastChecker α) :
    Except Ungradable (Plan α) := do
  c.grading.ensureGradable s.paths
  pure (s.plan c check)

def migrate? (s : Store locked) (c : Settings α) (check : ContrastChecker α) (a : Approach)
    (o : RunOptions) : Except Ungradable (Store locked × Execution) := do
  c.grading.ensureGradable s.paths
  pure (s.migrate c check a o)

def suggestions? (s : Store locked) (g : Naming.Grading α) (least : α) :
    Except Ungradable (List (Suggestion α)) := do
  g.ensureGradable s.paths
  pure (s.suggestions g least)

/-- Runs one action, if the paths that it infers can be graded. -/
def runAction? (s : Store locked) (g : Naming.Grading α) (dry : Bool) (a : Action) :
    Except Ungradable (Step locked (List Operation)) := do
  if a.kind = .rename then g.ensureGradable (inferredTargets dry (renameTargets a) s)
  pure (s.runAction dry a)

end Store

end

end DesignTokens
