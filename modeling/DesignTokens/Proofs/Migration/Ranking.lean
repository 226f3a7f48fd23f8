import DesignTokens.Migration.Comparison
import DesignTokens.Proofs.Scalar
import Mathlib.Tactic.GCongr

/-!
# Order of the compared scenarios

The share that a scenario saves of a cost does not rise with the cost, whatever the greatest cost
is, and its share of success does not fall with the probability.  So with weights that are not
negative a scenario that is nowhere worse than another one has no lower score.

The sort keeps the order of equal scores.  To say so, a ranking is stated of the scenarios together
with their places in the input, since two scenarios can have all their data in common.
-/

namespace DesignTokens

/-! ## What is assumed and what is compared -/

structure ComparisonWeights.IsNonneg (w : ComparisonWeights Rat) : Prop where
  risk : 0 ≤ w.risk
  effort : 0 ≤ w.effort
  timeline : 0 ≤ w.timeline
  completeness : 0 ≤ w.completeness

/-- The first scenario costs no more than the second in any way and is no less likely to succeed. -/
structure Scenario.Dominates (s t : Scenario Rat) : Prop where
  risk : s.risk ≤ t.risk
  effortHours : s.effortHours ≤ t.effortHours
  days : s.days ≤ t.days
  successProbability : t.successProbability ≤ s.successProbability

/-! ## Scores -/

section

variable {cost cost' : Rat} {w : ComparisonWeights Rat} {s t : Scenario Rat}

theorem saving_of_nonpos {greatest : Rat} (h : greatest ≤ 0) (cost : Rat) :
    saving cost greatest = 1 :=
  if_pos h

theorem saving_of_pos {greatest : Rat} (h : 0 < greatest) (cost : Rat) :
    saving cost greatest = Scalar.clamp 0 1 (1 - cost / greatest) :=
  if_neg (not_le.mpr h)

/-- Who costs more saves no more, also when nobody has costs. -/
theorem saving_antitone (h : cost ≤ cost') (greatest : Rat) :
    saving cost' greatest ≤ saving cost greatest := by
  rcases le_or_gt greatest 0 with hzero | hpos
  · rw [saving_of_nonpos hzero, saving_of_nonpos hzero]
  · rw [saving_of_pos hpos, saving_of_pos hpos]
    have hshare : cost / greatest ≤ cost' / greatest := div_le_div_of_nonneg_right h hpos.le
    exact Scalar.clamp_mono zero_le_one (sub_le_sub_left hshare 1)

theorem Scenario.score_eq (s : Scenario Rat) (w : ComparisonWeights Rat) (maxEffort maxDays : Nat) :
    (s.score w maxEffort maxDays).score =
      w.risk * saving s.risk 100 + w.effort * saving (s.effortHours : Rat) (maxEffort : Rat) +
        w.timeline * saving (s.days : Rat) (maxDays : Rat) +
        w.completeness * Scalar.clamp 0 1 s.successProbability := rfl

/-- A scenario that dominates another one has no lower score, whatever both are compared with. -/
theorem Scenario.Dominates.score_le (h : s.Dominates t) (hw : w.IsNonneg)
    (maxEffort maxDays : Nat) :
    (t.score w maxEffort maxDays).score ≤ (s.score w maxEffort maxDays).score := by
  obtain ⟨_, _, _, _⟩ := hw
  have hrisk := saving_antitone h.risk 100
  have hwhole : ∀ {m n : Nat}, m ≤ n → ∀ greatest : Nat,
      saving (n : Rat) (greatest : Rat) ≤ saving (m : Rat) (greatest : Rat) :=
    fun hmn greatest => saving_antitone (Nat.cast_le.mpr hmn) greatest
  have heffort := hwhole h.effortHours maxEffort
  have hdays := hwhole h.days maxDays
  have hsuccess := Scalar.clamp_mono (zero_le_one (α := Rat)) h.successProbability
  rw [Scenario.score_eq, Scenario.score_eq]
  gcongr

end

/-! ## Rankings -/

section

variable {scenarios : List (Scenario Rat)} {w : ComparisonWeights Rat}

/-- The score of a scenario when it is compared with some scenarios. -/
def Scenario.scoreAmong (s : Scenario Rat) (scenarios : List (Scenario Rat))
    (w : ComparisonWeights Rat) : ScenarioScore Rat :=
  s.score w ((scenarios.map Scenario.effortHours).foldl max 0)
    ((scenarios.map Scenario.days).foldl max 0)

/-- The first of two placed scenarios has the higher score, or both have the same and it stands
earlier in the input. -/
def RanksBefore (scenarios : List (Scenario Rat)) (w : ComparisonWeights Rat)
    (p q : Scenario Rat × Nat) : Prop :=
  (q.1.scoreAmong scenarios w).score < (p.1.scoreAmong scenarios w).score ∨
    (q.1.scoreAmong scenarios w).score = (p.1.scoreAmong scenarios w).score ∧ p.2 < q.2

theorem RanksBefore.asymm {p q : Scenario Rat × Nat} (h : RanksBefore scenarios w p q) :
    ¬ RanksBefore scenarios w q p := by
  rintro (hback | ⟨hsame, hback⟩) <;> rcases h with hlower | ⟨hsame', hplace⟩
  · exact lt_asymm hlower hback
  · exact hback.ne hsame'.symm
  · exact hlower.ne hsame.symm
  · exact lt_asymm hplace hback

/-- Whether the second scenario has no higher score than the first. -/
def noHigher (scenarios : List (Scenario Rat)) (w : ComparisonWeights Rat)
    (s t : Scenario Rat) : Bool :=
  decide ((t.scoreAmong scenarios w).score ≤ (s.scoreAmong scenarios w).score)

/-- The scenarios with their places in the input, by score and then by place. -/
def placedByScore (scenarios : List (Scenario Rat)) (w : ComparisonWeights Rat) :
    List (Scenario Rat × Nat) :=
  scenarios.zipIdx.mergeSort (List.zipIdxLE (noHigher scenarios w))

theorem placedByScore_perm (scenarios : List (Scenario Rat)) (w : ComparisonWeights Rat) :
    (placedByScore scenarios w).Perm scenarios.zipIdx :=
  List.mergeSort_perm _ _

/-- The ranking has the scores of the placed scenarios. -/
theorem rankScenarios_eq (scenarios : List (Scenario Rat)) (w : ComparisonWeights Rat) :
    rankScenarios scenarios w =
      (placedByScore scenarios w).map fun p => p.1.scoreAmong scenarios w := by
  have hplaces : (placedByScore scenarios w).map Prod.fst =
      scenarios.mergeSort (noHigher scenarios w) := List.mergeSort_zipIdx
  have hcompare : ∀ s ∈ scenarios, ∀ t ∈ scenarios, noHigher scenarios w s t =
      Scalar.sortsBefore (t.scoreAmong scenarios w).score (s.scoreAmong scenarios w).score :=
    fun _ _ _ _ => rfl
  calc
    rankScenarios scenarios w
        = (scenarios.map fun s => s.scoreAmong scenarios w).mergeSort fun x y =>
            Scalar.sortsBefore y.score x.score := rfl
    _ = (scenarios.mergeSort (noHigher scenarios w)).map fun s => s.scoreAmong scenarios w :=
          (List.map_mergeSort hcompare).symm
    _ = ((placedByScore scenarios w).map Prod.fst).map fun s => s.scoreAmong scenarios w := by
          rw [hplaces]
    _ = (placedByScore scenarios w).map fun p => p.1.scoreAmong scenarios w := List.map_map

/-- The first item goes before the second, and if the second also does so then the places decide. -/
theorem zipIdxLE_iff {α : Type} {le : α → α → Bool} {p q : α × Nat} :
    List.zipIdxLE le p q = true ↔ le p.1 q.1 = true ∧ (le q.1 p.1 = true → p.2 ≤ q.2) := by
  by_cases hle : le p.1 q.1 = true
  · by_cases hge : le q.1 p.1 = true
    · simp [List.zipIdxLE, hle, hge]
    · simp [List.zipIdxLE, hle, hge]
  · simp [List.zipIdxLE, hle]

theorem placedByScore_pairwise (scenarios : List (Scenario Rat)) (w : ComparisonWeights Rat) :
    (placedByScore scenarios w).Pairwise (RanksBefore scenarios w) := by
  have htrans : ∀ s t u : Scenario Rat, noHigher scenarios w s t = true →
      noHigher scenarios w t u = true → noHigher scenarios w s u = true := by
    intro s t u hst htu
    exact decide_eq_true ((of_decide_eq_true htu).trans (of_decide_eq_true hst))
  have htotal : ∀ s t : Scenario Rat,
      (noHigher scenarios w s t || noHigher scenarios w t s) = true := by
    intro s t
    rw [Bool.or_eq_true]
    exact (le_total _ _).imp decide_eq_true decide_eq_true
  have hsorted := List.pairwise_mergeSort (List.zipIdxLE_trans htrans)
    (List.zipIdxLE_total htotal) scenarios.zipIdx
  -- No two scenarios have the same place.
  have hplaces : (placedByScore scenarios w).Pairwise fun p q => p.2 ≠ q.2 := by
    have hnodup : ((placedByScore scenarios w).map Prod.snd).Nodup := by
      rw [((placedByScore_perm scenarios w).map Prod.snd).nodup_iff, List.zipIdx_map_snd]
      exact List.nodup_range'
    exact List.pairwise_map.mp hnodup
  refine (hsorted.and hplaces).imp ?_
  rintro p q ⟨hle, hne⟩
  obtain ⟨hscore, htie⟩ := zipIdxLE_iff.mp hle
  rcases lt_or_eq_of_le (of_decide_eq_true hscore) with hlower | hsame
  · exact .inl hlower
  · exact .inr ⟨hsame, lt_of_le_of_ne (htie (decide_eq_true hsame.ge)) hne⟩

/-! ## Dominance -/

/-- A comparison ranks the scenarios that it is made of: each of them once, the higher score first
and of equal scores the one that stands earlier, and it recommends what is ranked first. -/
structure Comparison.Ranks (c : Comparison Rat) (scenarios : List (Scenario Rat))
    (w : ComparisonWeights Rat) (placed : List (Scenario Rat × Nat)) : Prop where
  perm : placed.Perm scenarios.zipIdx
  order : placed.Pairwise (RanksBefore scenarios w)
  entries : c.ranking = placed.map fun p => p.1.scoreAmong scenarios w
  sorted : c.ranking.Pairwise fun x y => y.score ≤ x.score
  recommended : c.ranking.head?.map ScenarioScore.approach = some c.recommended

/-- Scenarios can be ranked in one order only. -/
theorem Comparison.Ranks.eq_of_pairwise {c : Comparison Rat} {placed others}
    (h : c.Ranks scenarios w placed) (hperm : others.Perm scenarios.zipIdx)
    (horder : others.Pairwise (RanksBefore scenarios w)) : placed = others :=
  List.Perm.eq_of_pairwise (fun _ _ _ _ hpq hqp => absurd hqp hpq.asymm) h.order horder
    (h.perm.trans hperm.symm)

theorem exists_compareScenarios? (hne : scenarios ≠ []) (w : ComparisonWeights Rat) :
    ∃ c, compareScenarios? scenarios w = some c ∧ c.ranking = rankScenarios scenarios w := by
  cases hranking : rankScenarios scenarios w with
  | nil =>
    have hlength := congrArg List.length hranking
    rw [rankScenarios_eq, List.length_map, (placedByScore_perm scenarios w).length_eq,
      List.length_zipIdx] at hlength
    exact absurd (List.length_eq_zero_iff.mp hlength) hne
  | cons best others => exact ⟨⟨best, others⟩, by rw [compareScenarios?, hranking], rfl⟩

/-- With weights that are not negative, scenarios are compared whenever there are any.  One that
dominates another has no lower score, and if it is ranked after it then both have the same score
and it stands later in the input. -/
theorem comparison_respects_dominance (hne : scenarios ≠ []) (hw : w.IsNonneg) :
    ∃ c placed, compareScenarios? scenarios w = some c ∧ c.Ranks scenarios w placed ∧
      ∀ p q : Scenario Rat × Nat, p.1.Dominates q.1 →
        (q.1.scoreAmong scenarios w).score ≤ (p.1.scoreAmong scenarios w).score ∧
        ([q, p].Sublist placed →
          (q.1.scoreAmong scenarios w).score = (p.1.scoreAmong scenarios w).score ∧
            q.2 < p.2) := by
  obtain ⟨c, hc, hranking⟩ := exists_compareScenarios? hne w
  have hentries := hranking.trans (rankScenarios_eq scenarios w)
  refine ⟨c, placedByScore scenarios w, hc, ?_, ?_⟩
  · refine ⟨placedByScore_perm scenarios w, placedByScore_pairwise scenarios w, hentries, ?_, rfl⟩
    rw [hentries, List.pairwise_map]
    exact (placedByScore_pairwise scenarios w).imp fun hpq =>
      hpq.elim le_of_lt fun hsame => hsame.1.le
  · intro p q hdominates
    have hscore := hdominates.score_le hw ((scenarios.map Scenario.effortHours).foldl max 0)
      ((scenarios.map Scenario.days).foldl max 0)
    refine ⟨hscore, fun hbefore => ?_⟩
    have hordered := List.pairwise_pair.mp ((placedByScore_pairwise scenarios w).sublist hbefore)
    rcases hordered with hlower | ⟨hsame, hplace⟩
    · exact absurd hlower (not_lt.mpr hscore)
    · exact ⟨hsame.symm, hplace⟩

end

/-- A scenario without phases and texts. -/
def Scenario.ofFigures (approach : Approach) (risk : Rat) (effortHours days : Nat)
    (successProbability : Rat) : Scenario Rat :=
  { approach, risk, effortHours, days, successProbability
    name := "", description := "", phases := [], benefits := [], challenges := []
    prerequisites := [] }

/-- The second dominates the first, but off the scale, where it counts for nothing.  Nobody needs
any days. -/
def tiedScenarios : List (Scenario Rat) :=
  [.ofFigures .progressive 0 4 0 1, .ofFigures .conservative (-5) 4 0 (3 / 2),
    .ofFigures .comprehensive 60 10 0 (1 / 2)]

theorem comparison_respects_dominance_tied :
    tiedScenarios ≠ [] ∧ (ComparisonWeights.standard : ComparisonWeights Rat).IsNonneg ∧
      ∃ c placed p q, compareScenarios? tiedScenarios .standard = some c ∧
        c.Ranks tiedScenarios .standard placed ∧ c.recommended = .progressive ∧
        p.1.approach = .conservative ∧ q.1.approach = .progressive ∧ p.1.Dominates q.1 ∧
        [q, p].Sublist placed ∧
        (q.1.scoreAmong tiedScenarios .standard).score =
          (p.1.scoreAmong tiedScenarios .standard).score ∧ q.2 < p.2 := by
  have hne : tiedScenarios ≠ [] := List.cons_ne_nil _ _
  have hw : (ComparisonWeights.standard : ComparisonWeights Rat).IsNonneg := by
    constructor <;> decide +kernel
  obtain ⟨c, placed, hc, hranks, hdominance⟩ := comparison_respects_dominance hne hw
  -- The scenarios are given in the order in which they are ranked.
  have hplaced : placed = tiedScenarios.zipIdx :=
    hranks.eq_of_pairwise (.refl _) (by unfold RanksBefore; decide +kernel)
  have hrecommended := hranks.recommended
  rw [hranks.entries, hplaced] at hrecommended
  have hdominates : (Scenario.ofFigures .conservative (-5) 4 0 (3 / 2)).Dominates
      (.ofFigures .progressive 0 4 0 1) := by constructor <;> decide +kernel
  have hbefore : [(Scenario.ofFigures .progressive 0 4 0 1, 0),
      (Scenario.ofFigures .conservative (-5) 4 0 (3 / 2), 1)].Sublist placed := by
    rw [hplaced]
    exact ((List.nil_sublist _).cons_cons _).cons_cons _
  exact ⟨hne, hw, c, placed, _, _, hc, hranks, (Option.some.inj hrecommended).symm, rfl, rfl,
    hdominates, hbefore, (hdominance _ _ hdominates).2 hbefore⟩

end DesignTokens
