import DesignTokens.Audit.Health
import DesignTokens.Proofs.Scalar
import Mathlib.Algebra.Order.Field.Basic
import Mathlib.Tactic.GCongr

/-!
# Bounds and order of the health score

Over the rationals every term of the score lies between zero and a hundred, and so does the score,
whatever the weights add up to.  A term never rises with a finding and never falls with a share,
and as long as no weight and no points are negative the score keeps that order through the weighted
sum, the rounding and the last cut.  The caps may have any sign: one that is not positive takes its
term out of play.
-/

namespace DesignTokens

/-! ## What is assumed and what is compared -/

structure HealthWeights.IsNonneg (w : HealthWeights Rat) : Prop where
  naming : 0 ≤ w.naming
  coverage : 0 ≤ w.coverage
  scopingErrors : 0 ≤ w.scopingErrors
  scopingWarnings : 0 ≤ w.scopingWarnings
  contrast : 0 ≤ w.contrast
  dependencies : 0 ≤ w.dependencies
  patterns : 0 ≤ w.patterns

/-- No finding earns points.  Nothing is said about the caps. -/
structure Penalties.IsNonneg (p : Penalties Rat) : Prop where
  scopingError : 0 ≤ p.scopingError
  scopingWarning : 0 ≤ p.scopingWarning
  dependencyError : 0 ≤ p.dependencyError
  dependencyWarning : 0 ≤ p.dependencyWarning
  patternError : 0 ≤ p.patternError
  patternWarning : 0 ≤ p.patternWarning

/-- No share of the first inputs is higher than that of the second, and everything is found at
least as often. -/
structure HealthInputs.NoBetter (i j : HealthInputs Rat) : Prop where
  complianceRate : i.complianceRate ≤ j.complianceRate
  coverage : i.coverage ≤ j.coverage
  contrastPassRate : i.contrastPassRate ≤ j.contrastPassRate
  scopingErrors : j.scopingErrors ≤ i.scopingErrors
  scopingWarnings : j.scopingWarnings ≤ i.scopingWarnings
  dependencyErrors : j.dependencyErrors ≤ i.dependencyErrors
  dependencyWarnings : j.dependencyWarnings ≤ i.dependencyWarnings
  patternErrors : j.patternErrors ≤ i.patternErrors
  patternWarnings : j.patternWarnings ≤ i.patternWarnings

def HealthTerms.toList {α : Type} (t : HealthTerms α) : List α :=
  [t.naming, t.coverage, t.scopingErrors, t.scopingWarnings, t.contrast, t.dependencies,
    t.patterns]

/-! ## Terms -/

section

variable {share share' points points' cap : Rat} {m n : Nat}

theorem percentTerm_eq (share : Rat) : percentTerm share = Scalar.clamp 0 1 share * 100 := rfl

theorem percentTerm_mem (share : Rat) : 0 ≤ percentTerm share ∧ percentTerm share ≤ 100 := by
  obtain ⟨hlow, hhigh⟩ := Scalar.clamp_mem (zero_le_one (α := Rat)) share
  rw [percentTerm_eq]
  constructor <;> linarith

theorem percentTerm_mono (h : share ≤ share') : percentTerm share ≤ percentTerm share' := by
  rw [percentTerm_eq, percentTerm_eq]
  exact mul_le_mul_of_nonneg_right (Scalar.clamp_mono zero_le_one h) (by norm_num)

/-- What a positive cap loses is at most all of it. -/
theorem cappedTerm_of_pos (h : 0 < cap) (n : Nat) (points : Rat) :
    cappedTerm n points cap = (cap - min (n * points) cap) / cap * 100 := by
  rw [← Scalar.lesser_eq_min]
  exact if_neg (not_le.mpr h)

theorem cappedTerm_of_nonpos (h : cap ≤ 0) (n : Nat) (points : Rat) :
    cappedTerm n points cap = 100 :=
  if_pos h

theorem cappedTerm_mem (hpoints : 0 ≤ points) (n : Nat) (cap : Rat) :
    0 ≤ cappedTerm n points cap ∧ cappedTerm n points cap ≤ 100 := by
  rcases le_or_gt cap 0 with hcap | hcap
  · rw [cappedTerm_of_nonpos hcap]
    norm_num
  · have hloss : 0 ≤ min (n * points) cap :=
      le_min (mul_nonneg (Nat.cast_nonneg n) hpoints) hcap.le
    have hleft : 0 ≤ cap - min (n * points) cap := sub_nonneg.mpr (min_le_right _ _)
    have hshare : (cap - min (n * points) cap) / cap ≤ 1 :=
      (div_le_one hcap).mpr (sub_le_self cap hloss)
    rw [cappedTerm_of_pos hcap]
    exact ⟨mul_nonneg (div_nonneg hleft hcap.le) (by norm_num), by linarith⟩

theorem cappedTerm_antitone (hpoints : 0 ≤ points) (h : m ≤ n) (cap : Rat) :
    cappedTerm n points cap ≤ cappedTerm m points cap := by
  rcases le_or_gt cap 0 with hcap | hcap
  · rw [cappedTerm_of_nonpos hcap, cappedTerm_of_nonpos hcap]
  · rw [cappedTerm_of_pos hcap, cappedTerm_of_pos hcap]
    have hmore : (m : Rat) * points ≤ n * points :=
      mul_le_mul_of_nonneg_right (Nat.cast_le.mpr h) hpoints
    gcongr

theorem remainingTerm_eq (points : Rat) : remainingTerm points = 100 - min points 100 := by
  rw [← Scalar.lesser_eq_min]
  rfl

theorem remainingTerm_mem (h : 0 ≤ points) :
    0 ≤ remainingTerm points ∧ remainingTerm points ≤ 100 := by
  rw [remainingTerm_eq]
  exact ⟨sub_nonneg.mpr (min_le_right _ _), sub_le_self _ (le_min h (by norm_num))⟩

theorem remainingTerm_antitone (h : points ≤ points') :
    remainingTerm points' ≤ remainingTerm points := by
  rw [remainingTerm_eq, remainingTerm_eq]
  exact sub_le_sub_left (min_le_min_right _ h) _

end

/-! ## All terms together -/

variable {w : HealthWeights Rat} {p : Penalties Rat} {i j : HealthInputs Rat}

theorem HealthInputs.terms_mem (hp : p.IsNonneg) (i : HealthInputs Rat) :
    ∀ x ∈ (i.terms p).toList, 0 ≤ x ∧ x ≤ 100 := by
  have hsum : ∀ (m n : Nat) {a b : Rat}, 0 ≤ a → 0 ≤ b → 0 ≤ (m : Rat) * a + n * b :=
    fun m n _ _ ha hb =>
      add_nonneg (mul_nonneg (Nat.cast_nonneg m) ha) (mul_nonneg (Nat.cast_nonneg n) hb)
  have hdependencies := remainingTerm_mem
    (hsum i.dependencyErrors i.dependencyWarnings hp.dependencyError hp.dependencyWarning)
  have hpatterns := remainingTerm_mem
    (hsum i.patternErrors i.patternWarnings hp.patternError hp.patternWarning)
  simp only [HealthTerms.toList, List.forall_mem_cons, List.not_mem_nil, false_implies,
    implies_true, and_true]
  exact ⟨percentTerm_mem _, percentTerm_mem _, cappedTerm_mem hp.scopingError _ _,
    cappedTerm_mem hp.scopingWarning _ _, percentTerm_mem _, hdependencies, hpatterns⟩

/-- Inputs that are no better make no term better. -/
theorem HealthInputs.NoBetter.terms (hp : p.IsNonneg) (h : i.NoBetter j) :
    List.Forall₂ (· ≤ ·) (i.terms p).toList (j.terms p).toList := by
  have hsum : ∀ {m m' n n' : Nat} {a b : Rat}, 0 ≤ a → 0 ≤ b → m ≤ m' → n ≤ n' →
      (m : Rat) * a + n * b ≤ m' * a + n' * b := by
    intro m m' n n' a b ha hb hm hn
    gcongr
  have hdependencies := remainingTerm_antitone
    (hsum hp.dependencyError hp.dependencyWarning h.dependencyErrors h.dependencyWarnings)
  have hpatterns := remainingTerm_antitone
    (hsum hp.patternError hp.patternWarning h.patternErrors h.patternWarnings)
  exact .cons (percentTerm_mono h.complianceRate) <| .cons (percentTerm_mono h.coverage) <|
    .cons (cappedTerm_antitone hp.scopingError h.scopingErrors _) <|
    .cons (cappedTerm_antitone hp.scopingWarning h.scopingWarnings _) <|
    .cons (percentTerm_mono h.contrastPassRate) <| .cons hdependencies <| .cons hpatterns .nil

/-- A weighted sum keeps the order of the terms. -/
theorem HealthTerms.weighted_mono (hw : w.IsNonneg) {t u : HealthTerms Rat}
    (h : List.Forall₂ (· ≤ ·) t.toList u.toList) : t.weighted w ≤ u.weighted w := by
  simp only [toList, List.forall₂_cons, List.forall₂_nil_left_iff, and_true] at h
  obtain ⟨hnaming, hcoverage, herrors, hwarnings, hcontrast, hdependencies, hpatterns⟩ := h
  obtain ⟨_, _, _, _, _, _, _⟩ := hw
  change t.naming * w.naming + t.coverage * w.coverage + t.scopingErrors * w.scopingErrors +
      t.scopingWarnings * w.scopingWarnings + t.contrast * w.contrast +
      t.dependencies * w.dependencies + t.patterns * w.patterns ≤
    u.naming * w.naming + u.coverage * w.coverage + u.scopingErrors * w.scopingErrors +
      u.scopingWarnings * w.scopingWarnings + u.contrast * w.contrast +
      u.dependencies * w.dependencies + u.patterns * w.patterns
  gcongr

/-! ## The score -/

theorem HealthInputs.score_eq (i : HealthInputs Rat) (w : HealthWeights Rat) (p : Penalties Rat) :
    (i.health w p).score =
      Scalar.toNat (Scalar.clamp 0 100 (roundRat ((i.terms p).weighted w))) := rfl

/-- With weights and points that are not negative, and caps of any sign, every term and the score
lie between zero and a hundred.  Inputs with no higher share and no fewer findings of any kind than
others get terms that are no higher, and no higher score. -/
theorem health_bounded_and_monotone (hw : w.IsNonneg) (hp : p.IsNonneg) :
    (∀ i : HealthInputs Rat, (i.health w p).score ≤ 100 ∧
        ∀ x ∈ (i.health w p).terms.toList, 0 ≤ x ∧ x ≤ 100) ∧
      ∀ i j : HealthInputs Rat, i.NoBetter j → (i.health w p).score ≤ (j.health w p).score ∧
        List.Forall₂ (· ≤ ·) (i.health w p).terms.toList (j.health w p).terms.toList := by
  have hscale : (0 : Rat) ≤ 100 := by norm_num
  refine ⟨fun i => ⟨?_, i.terms_mem hp⟩, fun i j h => ⟨?_, h.terms hp⟩⟩
  · rw [HealthInputs.score_eq]
    exact Scalar.toNat_le_of_le (Scalar.clamp_mem hscale _).2
  · rw [HealthInputs.score_eq, HealthInputs.score_eq]
    have hweighted := HealthTerms.weighted_mono hw (h.terms hp)
    exact Scalar.toNat_mono (Scalar.clamp_mono hscale (Scalar.roundRat_mono hweighted))

/-- What an audit might find in a token set with few defects. -/
def fairFindings : HealthInputs Rat :=
  { complianceRate := 9 / 10, coverage := 1 / 2, contrastPassRate := 3 / 4
    scopingErrors := 1, scopingWarnings := 2, dependencyErrors := 1, dependencyWarnings := 2
    patternErrors := 0, patternWarnings := 3 }

/-- The same with less coverage and so many defects that two terms have nothing left to lose. -/
def poorFindings : HealthInputs Rat :=
  { fairFindings with coverage := 1 / 3, scopingErrors := 9, dependencyWarnings := 40 }

/-- The standard points, but a cap for scoping warnings that takes their term out of play. -/
def withoutWarningCap : Penalties Rat := { Penalties.standard with scopingWarningCap := -8 }

theorem health_bounded_and_monotone_nothingLeft :
    (HealthWeights.standard : HealthWeights Rat).IsNonneg ∧ withoutWarningCap.IsNonneg ∧
      poorFindings.NoBetter fairFindings ∧
      (poorFindings.health .standard withoutWarningCap).terms.toList =
        [90, 100 / 3, 0, 100, 75, 0, 85] ∧
      (∀ x ∈ (poorFindings.health .standard withoutWarningCap).terms.toList, 0 ≤ x ∧ x ≤ 100) ∧
      (poorFindings.health .standard withoutWarningCap).score = 51 ∧
      (fairFindings.health .standard withoutWarningCap).score = 77 ∧
      (poorFindings.health .standard withoutWarningCap).score ≤
        (fairFindings.health .standard withoutWarningCap).score := by
  have hw : (HealthWeights.standard : HealthWeights Rat).IsNonneg := by
    constructor <;> decide +kernel
  have hp : withoutWarningCap.IsNonneg := by constructor <;> decide +kernel
  have hworse : poorFindings.NoBetter fairFindings := by constructor <;> decide +kernel
  obtain ⟨hbounds, hmono⟩ := health_bounded_and_monotone hw hp
  exact ⟨hw, hp, hworse, by decide +kernel, (hbounds poorFindings).2, by decide +kernel,
    by decide +kernel, (hmono _ _ hworse).1⟩

end DesignTokens
