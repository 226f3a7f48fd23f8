import DesignTokens.Migration.Scenarios
import DesignTokens.Proofs.Scalar

/-!
# Order of the scenario risks

Each scenario moves the base risk by an amount of its own, keeps the result off a floor and brings
it into the scale.  The conservative scenario moves it lower than the progressive one and has the
lower floor.  The comprehensive scenario moves it up but cuts it at ninety, which is less than the
progressive risk can be, so there the order rests on the progressive risk being its floor.
-/

namespace DesignTokens

/-- The risk of the scenario of an approach. -/
def riskOf (base : Rat) : Approach → Rat
  | .conservative => conservativeRisk base
  | .progressive => progressiveRisk base
  | .comprehensive => comprehensiveRisk base

theorem scenarioFor_risk (f : Findings Rat) (base : Rat) (teams : Teams) (approach : Approach) :
    (scenarioFor f base teams approach).risk = riskOf base approach := by
  cases approach <;> rfl

/-! ## The scale -/

section

variable {x y base base' : Rat}

theorem zero_le_hundred : (0 : Rat) ≤ 100 := by norm_num

theorem boundedRisk_mem (x : Rat) : 0 ≤ boundedRisk x ∧ boundedRisk x ≤ 100 :=
  Scalar.clamp_mem zero_le_hundred x

theorem boundedRisk_mono (h : x ≤ y) : boundedRisk x ≤ boundedRisk y :=
  Scalar.clamp_mono zero_le_hundred h

/-- A risk on the scale stays where it is. -/
theorem boundedRisk_of_mem (hlow : 0 ≤ x) (hhigh : x ≤ 100) : boundedRisk x = x :=
  Scalar.clamp_of_mem hlow hhigh

/-! ## The three risks -/

theorem conservativeRisk_eq (base : Rat) :
    conservativeRisk base = boundedRisk (max (base - 30) 10) := by
  rw [← Scalar.greater_eq_max]
  rfl

theorem progressiveRisk_eq (base : Rat) :
    progressiveRisk base = boundedRisk (max (base - 15) 20) := by
  rw [← Scalar.greater_eq_max]
  rfl

theorem comprehensiveRisk_eq (base : Rat) :
    comprehensiveRisk base = boundedRisk (max (min (base + 10) 90) (progressiveRisk base)) := by
  rw [← Scalar.greater_eq_max, ← Scalar.lesser_eq_min]
  rfl

theorem riskOf_mem (base : Rat) (approach : Approach) :
    0 ≤ riskOf base approach ∧ riskOf base approach ≤ 100 := by
  cases approach <;> exact boundedRisk_mem _

theorem conservativeRisk_le_progressiveRisk (base : Rat) :
    conservativeRisk base ≤ progressiveRisk base := by
  rw [conservativeRisk_eq, progressiveRisk_eq]
  have hmoved : base - 30 ≤ base - 15 := by linarith
  exact boundedRisk_mono (max_le_max hmoved (by norm_num))

theorem progressiveRisk_le_comprehensiveRisk (base : Rat) :
    progressiveRisk base ≤ comprehensiveRisk base := by
  obtain ⟨hlow, hhigh⟩ := riskOf_mem base .progressive
  calc
    progressiveRisk base = boundedRisk (progressiveRisk base) :=
      (boundedRisk_of_mem hlow hhigh).symm
    _ ≤ boundedRisk (max (min (base + 10) 90) (progressiveRisk base)) :=
      boundedRisk_mono (le_max_right _ _)
    _ = comprehensiveRisk base := (comprehensiveRisk_eq base).symm

/-- A token set that is riskier to begin with makes no scenario less risky. -/
theorem riskOf_mono (h : base ≤ base') (approach : Approach) :
    riskOf base approach ≤ riskOf base' approach := by
  have hprogressive : progressiveRisk base ≤ progressiveRisk base' := by
    rw [progressiveRisk_eq, progressiveRisk_eq]
    exact boundedRisk_mono (max_le_max_right _ (sub_le_sub_right h 15))
  cases approach with
  | conservative =>
    change conservativeRisk base ≤ conservativeRisk base'
    rw [conservativeRisk_eq, conservativeRisk_eq]
    exact boundedRisk_mono (max_le_max_right _ (sub_le_sub_right h 30))
  | progressive => exact hprogressive
  | comprehensive =>
    change comprehensiveRisk base ≤ comprehensiveRisk base'
    rw [comprehensiveRisk_eq, comprehensiveRisk_eq]
    have hcut : min (base + 10) 90 ≤ min (base' + 10) 90 := min_le_min_right _ (by linarith)
    exact boundedRisk_mono (max_le_max hcut hprogressive)

end

/-! ## The scenarios of an audit -/

/-- For every audit and settings, and for a base risk on the scale or off it, there are the three
scenarios in this order, and from one to the next the risk does not fall. -/
theorem scenario_risks_ordered (a : Audit Rat) (base : Rat) (m : MigrationSettings Rat) :
    ∃ conservative progressive comprehensive : Scenario Rat,
      scenariosFor a base m = [conservative, progressive, comprehensive] ∧
        conservative.approach = .conservative ∧ progressive.approach = .progressive ∧
        comprehensive.approach = .comprehensive ∧
        0 ≤ conservative.risk ∧ conservative.risk ≤ progressive.risk ∧
        progressive.risk ≤ comprehensive.risk ∧ comprehensive.risk ≤ 100 := by
  refine ⟨_, _, _, rfl, rfl, rfl, rfl, ?_⟩
  simp only [scenarioFor_risk]
  exact ⟨(riskOf_mem base .conservative).1, conservativeRisk_le_progressiveRisk base,
    progressiveRisk_le_comprehensiveRisk base, (riskOf_mem base .comprehensive).2⟩

/-- Above a hundred and five the comprehensive risk is cut below the progressive one, but for the
floor. -/
example : riskOf 112 .progressive = 97 ∧ riskOf 112 .comprehensive = 97 := by decide +kernel

end DesignTokens
