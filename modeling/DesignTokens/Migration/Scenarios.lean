import DesignTokens.Audit.Result
import DesignTokens.Migration.Comparison
import DesignTokens.Migration.Team

/-!
# The three scenarios

An audit is turned into a conservative, a progressive and a comprehensive plan.  The phases, their
hours and their texts are fixed; the actions are drawn from the findings of the audit, and an
action without targets is left out unless it means all tokens.
-/

namespace DesignTokens

structure MigrationSettings (α : Type) where
  -- The least confidence of a rename that counts as safe.
  safeRename : α
  teams : Teams
  weights : ComparisonWeights α
  deriving DecidableEq, Repr

def MigrationSettings.standard {α : Type} [Scalar α] : MigrationSettings α :=
  ⟨0.80, {}, .standard⟩

/-! ## Findings -/

/-- What the actions of the scenarios are drawn from. -/
structure Findings (α : Type) where
  -- The missing paths that something refers to.
  unresolved : List String
  suggestions : List (Suggestion α)
  -- The suggestions for tokens that nothing refers to and that are certain enough.
  safe : List (Suggestion α)
  -- The compliant paths that are not canonical, with their canonical paths.
  nonCanonical : List (String × String)
  -- The canonical paths of the coverage gaps.
  gaps : List String
  -- The paths of the default states that are missing.
  missingDefaults : List String
  redundant : List (List String)
  orphans : List String
  deriving DecidableEq, Repr

namespace Findings

variable {α : Type} [Scalar α]

/-- The canonical path of a compliant path that differs from it. -/
def canonicalFor? (path : String) : Option (String × String) :=
  match Naming.strict? path with
  | some n => if n.path = path then none else some (path, n.path)
  | none => none

/-- The path of the default state for a group of hover states. -/
def missingDefault? (paths : List String) : Option String :=
  (paths.head?.bind Naming.read?).map fun r => { r.name with state := none }.path

def ofAudit (a : Audit α) (safeRename : α) : Findings α where
  unresolved := Text.sorted ((a.links.links.filter fun l => !l.resolved).map Link.target)
  suggestions := a.suggestions
  safe := a.suggestions.filter fun s =>
    decide (safeRename ≤ s.confidence) && (a.links.dependents s.source).isEmpty
  nonCanonical := a.links.nodes.filterMap fun n => canonicalFor? n.path
  gaps := a.coverage.gaps.map CoverageCell.suggestedPath
  missingDefaults := Text.sorted (a.patterns.missingVariants.filterMap missingDefault?)
  redundant := a.patterns.redundantGroups
  orphans := a.links.defects.filterMap fun
    | .orphaned path => some path
    | _ => none

/-- Where the renames and restructures move each path. -/
def relocations (f : Findings α) : List (String × String) :=
  f.nonCanonical ++ f.suggestions.map fun s => (s.source, s.target)

/-- The path that a token has after the renames and restructures. -/
def relocated (f : Findings α) (path : String) : String :=
  (f.relocations.lookup path).getD path

/-- The redundant groups by the paths that they have after the renames, as far as at least two
paths remain. -/
def relocatedGroups (f : Findings α) : List (List String) :=
  (f.redundant.map fun group => Text.firsts (group.map f.relocated)).filter fun group =>
    2 ≤ group.length

/-- The orphans by the paths that they have after the renames, other than those that a merge
takes care of. -/
def relocatedOrphans (f : Findings α) : List String :=
  let merged := f.relocatedGroups.flatten
  (f.orphans.map f.relocated).filter fun p => !merged.contains p

end Findings

/-! ## Drafts -/

/-- An action without its identifier. -/
structure Draft where
  kind : ActionKind
  description : String
  targets : List String
  newPaths : List String := []
  checks : List Check := []
  deriving DecidableEq, Repr

namespace Draft

def isUseful (d : Draft) : Bool := !d.targets.isEmpty || d.kind == .updateReferences

def toAction (d : Draft) (id : String) : Action where
  id := id
  kind := d.kind
  description := d.description
  targets := d.targets
  newPaths := d.newPaths
  checks := d.checks

def placeholders (paths : List String) (purpose : String) : Draft where
  kind := .create
  description := s!"Create {paths.length} placeholder token(s) for {purpose}"
  targets := paths
  checks := [.namingCompliance]

def renames {α : Type} (suggestions : List (Suggestion α)) (what : String) : Draft where
  kind := .rename
  description := s!"Rename {suggestions.length} {what}"
  targets := suggestions.map Suggestion.source
  newPaths := suggestions.map Suggestion.target
  checks := [.noBrokenReferences, .namingCompliance]

def restructure (paths : List String) : Draft where
  kind := .restructure
  description := s!"Rebuild {paths.length} compliant path(s) in canonical form"
  targets := paths
  checks := [.noBrokenReferences, .namingCompliance]

def merge (paths : List String) : Draft where
  kind := .merge
  description := s!"Merge {paths.length} redundant tokens into " ++ paths.headD ""
  targets := paths
  checks := [.noBrokenReferences]

def deletion (paths : List String) : Draft where
  kind := .delete
  description := s!"Delete {paths.length} orphaned token(s)"
  targets := paths
  checks := [.noBrokenReferences]

/-- Descriptions for all compliant tokens. -/
def documentation (checks : List Check) : Draft where
  kind := .updateReferences
  description := "Backfill descriptions of compliant tokens"
  targets := []
  checks := checks

end Draft

/-- A phase without its identifiers. -/
structure PhaseDraft where
  name : String
  description : String
  hours : Nat
  actions : List Draft
  rollbackPlan : String := "Restore the pre-phase snapshot"
  deriving DecidableEq, Repr

namespace PhaseDraft

def phaseId (approach : Approach) (index : Nat) : String := s!"{approach.id}-{index + 1}"

/-- The phase at a position of a scenario; it depends on the phase before it. -/
def toPhase (approach : Approach) (index : Nat) (d : PhaseDraft) : Phase where
  id := phaseId approach index
  name := d.name
  description := d.description
  actions := (d.actions.filter Draft.isUseful).zipIdx.map fun (a, i) =>
    a.toAction s!"{phaseId approach index}.{i + 1}"
  effortHours := d.hours
  dependencies := if index = 0 then [] else [phaseId approach (index - 1)]
  rollbackPlan := d.rollbackPlan

end PhaseDraft

def phasesOf (approach : Approach) (drafts : List PhaseDraft) : List Phase :=
  drafts.zipIdx.map fun (d, i) => d.toPhase approach i

/-! ## Templates -/

section

variable {α : Type} [Scalar α]

def deletePlaceholders : String := "Delete the created placeholders"

def onlyDescriptions : String := "No store changes beyond descriptions"

/-- Repairs what is broken and renames only what nothing refers to. -/
def conservativePhases (f : Findings α) : List PhaseDraft :=
  [{ name := "Critical fixes"
     description := "Repair broken references"
     hours := 8
     actions := [.placeholders f.unresolved "unresolved references"]
     rollbackPlan := deletePlaceholders },
   { name := "Low-risk renames"
     description := "Rename high-confidence tokens nothing references"
     hours := 12
     actions := [.renames f.safe "unreferenced token(s)"] },
   { name := "Documentation"
     description := "Describe the naming scheme in place"
     hours := 4
     actions := [.documentation []]
     rollbackPlan := onlyDescriptions }]

/-- Brings every name onto the scheme and closes the coverage gaps. -/
def progressivePhases (f : Findings α) : List PhaseDraft :=
  [{ name := "Foundation"
     description := "Repair broken references"
     hours := 16
     actions := [.placeholders f.unresolved "unresolved references"]
     rollbackPlan := deletePlaceholders },
   { name := "Structural alignment"
     description := "Move every non-compliant path onto the naming scheme"
     hours := 40
     actions :=
       [.renames f.suggestions "non-compliant token(s)",
         .restructure (f.nonCanonical.map Prod.fst)] },
   { name := "Coverage gaps"
     description := "Fill required context cells"
     hours := 24
     actions := [.placeholders f.gaps "coverage gaps"]
     rollbackPlan := "Delete the created gap tokens" },
   { name := "Validation"
     description := "Verify integrity and document the result"
     hours := 12
     actions := [.documentation Check.all]
     rollbackPlan := onlyDescriptions }]

/-- Rebuilds the store: canonical names, no duplicates, full coverage, no orphans. -/
def comprehensivePhases (f : Findings α) : List PhaseDraft :=
  [{ name := "Analysis and planning"
     description := "Repair broken references"
     hours := 16
     actions := [.placeholders f.unresolved "unresolved references"]
     rollbackPlan := deletePlaceholders },
   { name := "Tooling infrastructure"
     description := "Normalise compliant paths so automated checks can run"
     hours := 24
     actions := [.restructure (f.nonCanonical.map Prod.fst)] },
   { name := "Full restructure"
     description := "Rename every non-compliant token and merge duplicates"
     hours := 80
     actions :=
       .renames f.suggestions "non-compliant token(s)" :: f.relocatedGroups.map .merge },
   { name := "Full coverage"
     description := "Fill every gap and default state"
     hours := 40
     actions :=
       [.placeholders f.gaps "coverage gaps",
         .placeholders f.missingDefaults "missing default states"]
     rollbackPlan := "Delete the created tokens" },
   { name := "Optimization"
     description := "Remove orphaned tokens"
     hours := 24
     actions := [.deletion f.relocatedOrphans] },
   { name := "Handoff documentation"
     description := "Document the restructured set"
     hours := 12
     actions := [.documentation Check.all]
     rollbackPlan := onlyDescriptions }]

/-! ## Risks -/

def boundedRisk (risk : α) : α := Scalar.clamp 0 100 risk

def conservativeRisk (base : α) : α := boundedRisk (Scalar.greater (base - 30) 10)

def progressiveRisk (base : α) : α := boundedRisk (Scalar.greater (base - 15) 20)

/-- Never below the risk of the progressive scenario. -/
def comprehensiveRisk (base : α) : α :=
  boundedRisk (Scalar.greater (Scalar.lesser (base + 10) 90) (progressiveRisk base))

/-! ## Scenarios -/

/-- A scenario from its phases; its effort is theirs, and its duration that of the team. -/
def scenarioOf (approach : Approach) (drafts : List PhaseDraft) (team : Team)
    (name description : String) (risk successProbability : α)
    (benefits challenges prerequisites : List String) : Scenario α :=
  let effortHours := (drafts.map PhaseDraft.hours).foldr (· + ·) 0
  { approach, name, description, risk
    phases := phasesOf approach drafts
    effortHours
    days := team.days α effortHours
    successProbability, benefits, challenges, prerequisites }

def conservativeScenario (f : Findings α) (base : α) (teams : Teams) : Scenario α :=
  scenarioOf .conservative (conservativePhases f) teams.conservative
    "Conservative cleanup" "Fix critical defects and rename only tokens that are safe to move"
    (conservativeRisk base) 0.95
    ["Minimal disruption", "Broken references repaired first"]
    ["Most naming debt remains", "Coverage gaps stay open"]
    ["Snapshot of the current token set"]

def progressiveScenario (f : Findings α) (base : α) (teams : Teams) : Scenario α :=
  scenarioOf .progressive (progressivePhases f) teams.progressive
    "Progressive alignment" "Align every name with the ontology and close coverage gaps"
    (progressiveRisk base) 0.80
    ["Consistent naming across the token set", "Required context cells covered"]
    ["Consumers must follow renamed paths", "Placeholder values need design input"]
    ["Snapshot of the current token set", "Agreement on the naming ontology"]

def comprehensiveScenario (f : Findings α) (base : α) (teams : Teams) : Scenario α :=
  scenarioOf .comprehensive (comprehensivePhases f) teams.comprehensive
    "Comprehensive restructure"
    "Rebuild the token set on the ontology with full coverage and cleanup"
    (comprehensiveRisk base) 0.65
    ["Fully compliant, fully covered token set", "Duplicates and orphans removed"]
    ["Largest consumer impact", "Deleted tokens may still be used outside the set"]
    ["Snapshot of the current token set", "Agreement on the naming ontology",
      "Inventory of downstream consumers"]

def scenarioFor (f : Findings α) (base : α) (teams : Teams) : Approach → Scenario α
  | .conservative => conservativeScenario f base teams
  | .progressive => progressiveScenario f base teams
  | .comprehensive => comprehensiveScenario f base teams

def scenariosFor (a : Audit α) (base : α) (m : MigrationSettings α) : List (Scenario α) :=
  Approach.all.map (scenarioFor (Findings.ofAudit a m.safeRename) base m.teams)

end

end DesignTokens
