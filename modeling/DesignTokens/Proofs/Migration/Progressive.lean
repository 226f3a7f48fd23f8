import DesignTokens.Proofs.Audit.Coverage
import DesignTokens.Proofs.Migration.Carrying
import DesignTokens.Proofs.Migration.Planned
import DesignTokens.Proofs.Migration.Relocations

/-!
# The progressive scenario

Whatever of it fails, the progressive scenario loses no token and closes every coverage gap.  A
token moves at most once, by its suggestion or to its canonical path, and a canonical path is read
as a name of the same context and class.  So what was covered stays covered, and a gap is filled by
its own token or by the one that was in the way.
-/

namespace DesignTokens

open Store Operation

namespace Findings.DrawnFrom

variable {α : Type} {f : Findings α} {s s' : OpenStore} {ops : List Operation}

/-- The progressive scenario carries every token to where the findings move it, or not at all, and
takes all paths of the gaps. -/
theorem progressive_carried (h : f.DrawnFrom s)
    (hrun : DraftRun ((progressivePhases f).flatMap PhaseDraft.actions) s s' ops) :
    s'.size = s.size + created ops ∧ (∀ p ∈ f.gaps, p ∈ s'.paths) ∧
      ∃ place, Carried place s s' ∧
        ∀ p ∈ s.paths, place p = p ∨ (p, place p) ∈ f.relocations := by
  rcases hrun.cons_inv with ⟨s₁, ops₁, _, hcreate, htail₁, rfl⟩
  rcases htail₁.cons_inv with ⟨s₂, ops₂, _, hrename, htail₂, rfl⟩
  rcases htail₂.cons_inv with ⟨s₃, ops₃, _, hrestructure, htail₃, rfl⟩
  rcases htail₃.cons_inv with ⟨s₄, ops₄, _, hfill, htail₄, rfl⟩
  rcases htail₄.cons_inv with ⟨s₅, ops₅, _, hdescribe, htail₅, rfl⟩
  cases htail₅
  rcases creations_carried (targetRun_of_placeholders hcreate) with ⟨hcarried₁, hsize₁, _⟩
  obtain ⟨hsize₂, place, hcarried₂, hplace⟩ :=
    moves_carried (by decide) (targetRun_of_renames hrename) h.independent_suggested
  obtain ⟨hsize₃, place', hcarried₃, hplace'⟩ := moves_carried (by decide)
    (targetRun_of_restructure h.nonCanonical_strict hrestructure) h.independent_nonCanonical
  rcases creations_carried (targetRun_of_placeholders hfill) with ⟨hcarried₄, hsize₄, hgaps⟩
  obtain ⟨hcarried₅, hsize₅⟩ := descriptions_carried (targetRun_of_documentation hdescribe)
    fun p hp => (List.mem_filter.mp hp).1
  refine ⟨?_, fun p hp => hcarried₅.place_mem (hgaps p hp), place' ∘ place, ?_, fun p hp => ?_⟩
  · simp only [created_append]
    have hnil : created [] = 0 := rfl
    omega
  · exact (((hcarried₁.trans hcarried₂).trans hcarried₃).trans hcarried₄).trans hcarried₅
  · have hp₁ : p ∈ s₁.paths := hcarried₁.place_mem hp
    have hlater := hplace' (place p) (hcarried₂.place_mem hp₁)
    rw [Function.comp_apply]
    rcases hplace p hp₁ with hstays | hmoved
    · rw [hstays] at hlater ⊢
      exact hlater.imp_right (List.mem_append_left _)
    · -- The target of a suggestion is no path of the audited store, so it is not rebuilt.
      have hmem : (p, place p) ∈ f.relocations := List.mem_append_right _ hmoved
      rcases hlater with hstays | hagain
      · exact .inr (hstays.symm ▸ hmem)
      · have hsource := List.mem_map_of_mem (f := Prod.fst) hagain
        rcases List.mem_map.mp hmoved with ⟨c, hc, heq⟩
        have htarget : c.target = place p := congrArg Prod.snd heq
        exact absurd (htarget ▸ h.nonCanonical_sublist.subset hsource) (h.target_free c hc)

/-- What the audited store covers is covered after the progressive scenario, and so are its
gaps. -/
theorem progressive_gaps (h : f.DrawnFrom s)
    (hrun : DraftRun ((progressivePhases f).flatMap PhaseDraft.actions) s s' ops) :
    s'.coverage.gaps = [] := by
  rcases h.progressive_carried hrun with ⟨_, hgaps, place, hcarried, hplace⟩
  rw [gaps_eq_nil_iff]
  intro x c hrequired
  -- A cell that the store covered stays covered, and any other one is a gap that is filled.
  by_cases hcovers : s.Covers x c
  · rcases hcovers with ⟨p, hp, n, hn, hcontext, hclass⟩
    have hp' := hcarried.place_mem hp
    rcases hplace p hp with hstays | hmoved
    · exact ⟨p, hstays ▸ hp', n, hn, hcontext, hclass⟩
    · rcases List.mem_append.mp hmoved with hrebuilt | hsuggested
      · -- A compliant token can only have moved to the canonical path of its own name.
        rcases (h.nonCanonical_iff _ _).mp hrebuilt with ⟨_, _, n', hn', hpath⟩
        rw [hn] at hn'
        cases hn'
        refine ⟨place p, hp', n.normalized, ?_, hcontext, hclass⟩
        rw [← hpath]
        exact Naming.strict?_path_of_strict? hn
      · have hnone := h.strict?_eq_none_of_mem_suggested
          (List.mem_map_of_mem (f := Prod.fst) hsuggested)
        rw [hn] at hnone
        cases hnone
  · refine covers_of_suggestedPath_mem (hgaps _ ?_)
    rw [h.gaps_eq]
    exact List.mem_map_of_mem (mem_gaps_iff.mpr ⟨x, c, hrequired, hcovers, rfl⟩)

end Findings.DrawnFrom

/-- Running the progressive scenario on the store that was planned closes every coverage gap and
loses nothing: the store grows by the tokens created, and every token is found, with its declared
kind, at its own path, at the path of its suggestion or at its canonical path, each at a different
one. -/
theorem progressive_closes_gaps_and_keeps {α : Type} [Scalar α] {c : Settings α} {o : RunOptions}
    (hsound : c.grading.isSound = true) (hdry : o.dryRun = false) (hstop : o.stopOnError = false)
    (s : OpenStore) (check : ContrastChecker α) :
    ∃ p sc, s.plan? c check = .ok p ∧ p.scenario? .progressive = some sc ∧
      let run := s.execute o .progressive sc.phases
      run.1.coverage.gaps = [] ∧
        run.1.size = s.size +
          (run.2.operations.filter fun op => op.kind = .create && op.succeeded).length ∧
        ∃ place : String → String,
          (∀ x ∈ s.paths, ∀ y ∈ s.paths, place x = place y → x = y) ∧
          ∀ t ∈ s.tokens,
            (∃ t' ∈ run.1.tokens, t'.path = place t.path ∧ t'.declared = t.declared) ∧
            (place t.path = t.path ∨
              (∃ x ∈ p.audit.suggestions, x.source = t.path ∧ x.target = place t.path) ∨
              ∃ n, Naming.strict? t.path = some n ∧ n.path = place t.path) := by
  refine ⟨_, _, plan?_eq_ok hsound s check, s.scenario?_plan c check .progressive, ?_⟩
  let f := Findings.ofAudit (s.auditWith c check) c.migration.safeRename
  have hf : f.DrawnFrom s := Findings.drawnFrom_ofAudit s c check _
  have hphases : (s.plannedScenario c check .progressive).phases =
      phasesOf .progressive (progressivePhases f) := rfl
  have hrun := execute_drafts hdry hstop s .progressive (f.merge_targets_ne_nil .progressive)
  rcases hf.progressive_carried hrun with ⟨hsize, _, place, hcarried, hplace⟩
  dsimp only
  rw [hphases]
  refine ⟨hf.progressive_gaps hrun, hsize, place, hcarried.injOn, fun t ht => ?_⟩
  refine ⟨hcarried.found t ht, (hplace t.path (path_mem_paths ht)).imp_right fun hmoved => ?_⟩
  rcases List.mem_append.mp hmoved with hrebuilt | hsuggested
  · exact .inr ((hf.nonCanonical_iff _ _).mp hrebuilt).2.2
  · rcases List.mem_map.mp hsuggested with ⟨x, hx, heq⟩
    exact .inl ⟨x, hx, congrArg Prod.fst heq, congrArg Prod.snd heq⟩

/-- A store with a dangling reference to the path of a coverage gap, and with a path for which a
better name is suggested. -/
def gapInTheWay : OpenStore :=
  ⟨[{ path := "x", value := .text "\x7bbackground.action.base\x7d" },
    { path := "bg-primary", value := .text "#3B82F6" }], by decide⟩

/-- The token for one gap cannot be created, and still the gap is closed. -/
theorem progressive_closes_gaps_and_keeps_gapInTheWay :
    ∃ (c : Settings Rat) (check : ContrastChecker Rat) (o : RunOptions) (p : Plan Rat)
      (sc : Scenario Rat), c.grading.isSound = true ∧ o.dryRun = false ∧ o.stopOnError = false ∧
      gapInTheWay.plan? c check = .ok p ∧ p.scenario? .progressive = some sc ∧
      (gapInTheWay.execute o .progressive sc.phases).1.coverage.gaps = [] ∧
      (gapInTheWay.execute o .progressive sc.phases).1.size = 2 +
        ((gapInTheWay.execute o .progressive sc.phases).2.operations.filter fun op =>
          op.kind = .create && op.succeeded).length := by
  have hsound : (Settings.standard : Settings Rat).grading.isSound = true := by decide +kernel
  let check : ContrastChecker Rat := fun _ _ => none
  let o : RunOptions := {}
  have hdry : o.dryRun = false := rfl
  have hstop : o.stopOnError = false := rfl
  rcases progressive_closes_gaps_and_keeps hsound hdry hstop gapInTheWay check with
    ⟨p, sc, hplan, hsc, hgaps, hsize, _⟩
  exact ⟨.standard, check, o, p, sc, hsound, hdry, hstop, hplan, hsc, hgaps, hsize⟩

end DesignTokens
