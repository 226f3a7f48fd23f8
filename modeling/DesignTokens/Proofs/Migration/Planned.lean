import DesignTokens.Migration.Plan
import DesignTokens.Proofs.Migration.Runs

/-!
# Planned scenarios

With a sound grading every store can be planned, the plan has a scenario for each approach, and
running it runs its drafts one after the other.
-/

namespace DesignTokens

variable {α : Type}

/-- The phases of the scenario of an approach. -/
def Findings.phases (f : Findings α) : Approach → List PhaseDraft
  | .conservative => conservativePhases f
  | .progressive => progressivePhases f
  | .comprehensive => comprehensivePhases f

/-- No merge of a plan is without targets. -/
theorem Findings.merge_targets_ne_nil (f : Findings α) (a : Approach) :
    ∀ d ∈ (f.phases a).flatMap PhaseDraft.actions, d.kind = .merge → d.targets ≠ [] := by
  have hgroup : ∀ group ∈ f.relocatedGroups, group ≠ [] := by
    intro group hgroup hnil
    have htwo := (List.mem_filter.mp hgroup).2
    simp [hnil] at htwo
  cases a with
  | conservative =>
    simp [Findings.phases, conservativePhases, Draft.placeholders, Draft.renames,
      Draft.documentation]
  | progressive =>
    simp [Findings.phases, progressivePhases, Draft.placeholders, Draft.renames,
      Draft.restructure, Draft.documentation]
  | comprehensive =>
    intro d hd hkind
    simp only [Findings.phases, comprehensivePhases, List.flatMap_cons, List.flatMap_nil,
      List.mem_append, List.mem_cons, List.mem_map, List.not_mem_nil, or_false] at hd
    rcases hd with rfl | rfl | (rfl | ⟨group, hmem, rfl⟩) | (rfl | rfl) | rfl | rfl
    -- A group that is merged has two members; no other draft merges.
    case inr.inr.inl.inr => exact hgroup group hmem
    all_goals cases hkind

/-! ## The plan for a store -/

section

variable [Scalar α] {locked : String → Bool}

/-- A sound grading refuses no path. -/
theorem Naming.Grading.ensureGradable_of_isSound {g : Naming.Grading α} (hsound : g.isSound = true)
    (paths : List String) : g.ensureGradable paths = .ok () := by
  have hnone : paths.find? g.refuses = none := by
    simp [List.find?_eq_none, Naming.Grading.refuses, hsound]
  rw [Naming.Grading.ensureGradable, hnone]

theorem Store.plan?_eq_ok {c : Settings α} (hsound : c.grading.isSound = true) (s : Store locked)
    (check : ContrastChecker α) : s.plan? c check = .ok (s.plan c check) := by
  rw [Store.plan?, Naming.Grading.ensureGradable_of_isSound hsound]
  rfl

theorem scenarioFor_approach (f : Findings α) (base : α) (teams : Teams) (a : Approach) :
    (scenarioFor f base teams a).approach = a := by
  cases a <;> rfl

theorem scenarioFor_phases (f : Findings α) (base : α) (teams : Teams) (a : Approach) :
    (scenarioFor f base teams a).phases = phasesOf a (f.phases a) := by
  cases a <;> rfl

/-- The scenario of an approach in the plan for a store. -/
theorem Store.scenario?_plan (s : Store locked) (c : Settings α) (check : ContrastChecker α)
    (a : Approach) : (s.plan c check).scenario? a = some (s.plannedScenario c check a) := by
  cases a <;> simp [Plan.scenario?, Store.plan, scenariosFor, Approach.all,
    scenarioFor_approach, Store.plannedScenario]

end

/-! ## Running the drafts -/

namespace Store

theorem usefulDrafts_eq (phases : List PhaseDraft) :
    usefulDrafts phases = (phases.flatMap PhaseDraft.actions).filter Draft.isUseful := by
  simp [usefulDrafts, List.filter_flatMap]

/-- Running some phases runs all their drafts, as far as no merge is without targets. -/
theorem execute_drafts {o : RunOptions} (hdry : o.dryRun = false) (hstop : o.stopOnError = false)
    (s : OpenStore) (a : Approach) {phases : List PhaseDraft}
    (hmerge : ∀ d ∈ phases.flatMap PhaseDraft.actions, d.kind = .merge → d.targets ≠ []) :
    DraftRun (phases.flatMap PhaseDraft.actions) s (s.execute o a (phasesOf a phases)).1
      (s.execute o a (phasesOf a phases)).2.operations := by
  have hrun := execute_draftRun hdry hstop s a phases
  rw [usefulDrafts_eq] at hrun
  exact hrun.of_filter hmerge

end Store
end DesignTokens
