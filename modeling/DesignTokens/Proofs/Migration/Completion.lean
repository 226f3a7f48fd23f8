import DesignTokens.Proofs.Migration.Planned
import DesignTokens.Proofs.Migration.Relocations

/-!
# When a plan runs through

A plan is drawn from one audit of a store, and its actions run on a store that the earlier actions
have changed.  Renames, restructures and created tokens can then claim the same path, and a deleted
orphan can have come by a reference.  Nothing else goes wrong: a scenario run on the store that was
planned is completed exactly if the paths that it creates and moves to are all free and distinct,
and if what refers to an orphan is deleted before it.
-/

namespace DesignTokens
namespace Findings

open Store Operation

variable {α : Type}

/-! ## What has to fit -/

/-- The paths that the merges of a plan fold into others. -/
def mergedAway (f : Findings α) : List String := f.relocatedGroups.flatMap List.tail

/-- The paths at which a scenario puts tokens are free when it comes to them. -/
def Fits (f : Findings α) (s : OpenStore) : Approach → Prop
  | .conservative => (s.paths ++ f.unresolved ++ f.safe.map Suggestion.target).Nodup
  | .progressive => (s.paths ++ f.unresolved ++ f.relocations.map Prod.snd ++ f.gaps).Nodup
  | .comprehensive =>
    (s.paths ++ f.unresolved ++ f.relocations.map Prod.snd).Nodup ∧
      (f.gaps ++ f.missingDefaults).Nodup ∧
        ∀ p ∈ f.gaps ++ f.missingDefaults,
          p ∈ f.unresolved ++ s.paths.map f.relocated → p ∈ f.mergedAway

namespace DrawnFrom

variable {f : Findings α} {s s' : OpenStore} {ops : List Operation} (h : f.DrawnFrom s)
include h

theorem nodup_unresolved : (s.paths ++ f.unresolved).Nodup := by
  rw [List.nodup_append]
  refine ⟨s.nodup_paths, h.unresolved_nodup, ?_⟩
  rintro p hp q hq rfl
  exact h.unresolved_free p hq hp

/-- Placeholders never fail.  The renames and restructures after them, in either order, all succeed
exactly if their targets and the placeholders are distinct. -/
theorem relocations_run {kind kind' : ActionKind} {description : String}
    {moves moves' : List (String × String)} {s₁ s₂ s₃ : OpenStore}
    {ops₁ ops₂ ops₃ : List Operation} (hperm : f.relocations.Perm (moves ++ moves'))
    (hcreate : TargetRun (createTarget false "" description) f.unresolved s s₁ ops₁)
    (hmove : TargetRun (moveTo kind) moves s₁ s₂ ops₂)
    (hmove' : TargetRun (moveTo kind') moves' s₂ s₃ ops₃) :
    AllSucceeded ops₁ ∧
      (AllSucceeded (ops₂ ++ ops₃) ↔
        (s.paths ++ f.unresolved ++ f.relocations.map Prod.snd).Nodup) ∧
      (AllSucceeded (ops₂ ++ ops₃) → s₃.paths.Perm
        (((s.paths ++ f.unresolved).filter fun p => !(f.relocations.map Prod.fst).contains p) ++
          f.relocations.map Prod.snd)) := by
  have hcreated := creations_run hcreate
  have hfirst := hcreated.succeeded.mpr h.nodup_unresolved
  have hpaths₁ := hcreated.paths hfirst
  have hsources : ∀ b ∈ moves ++ moves', b.1 ∈ s₁.paths := by
    intro b hb
    rw [hpaths₁]
    exact List.mem_append_left _ (h.sources_mem (hperm.mem_iff.mpr hb))
  have hmoves := h.independent_relocations.perm hperm
  have hearly := moves_run hmove hmoves.left fun b hb => hsources b (List.mem_append_left _ hb)
  rcases hearly.append (moves_run hmove' hmoves.right) hmoves fun b hb =>
    hsources b (List.mem_append_right _ hb) with ⟨hmoved, hpaths₃⟩
  refine ⟨hfirst, ?_, fun hall => ?_⟩
  · rw [hmoved, hpaths₁]
    exact ((hperm.symm.map Prod.snd).append_left _).nodup_iff
  · rw [hpaths₃ hall, hpaths₁]
    have hkeep : ∀ p ∈ s.paths ++ f.unresolved,
        (!((moves ++ moves').map Prod.fst).contains p) =
          !(f.relocations.map Prod.fst).contains p := by
      intro p _
      simp only [List.contains_eq_mem, (hperm.map Prod.fst).mem_iff]
    rw [List.filter_congr hkeep]
    exact (hperm.symm.map Prod.snd).append_left _

/-! ## The conservative scenario -/

theorem allSucceeded_conservative
    (hrun : DraftRun ((conservativePhases f).flatMap PhaseDraft.actions) s s' ops) :
    AllSucceeded ops ↔ f.Fits s .conservative := by
  rcases hrun.cons_inv with ⟨s₁, ops₁, _, hcreate, htail₁, rfl⟩
  rcases htail₁.cons_inv with ⟨s₂, ops₂, _, hrename, htail₂, rfl⟩
  rcases htail₂.cons_inv with ⟨s₃, ops₃, _, hdescribe, htail₃, rfl⟩
  cases htail₃
  have hcreated := creations_run (targetRun_of_placeholders hcreate)
  have hfirst := hcreated.succeeded.mpr h.nodup_unresolved
  have hpaths₁ := hcreated.paths hfirst
  have hsources : ∀ b ∈ suggestedMoves f.safe, b.1 ∈ s₁.paths := by
    intro b hb
    rcases List.mem_map.mp hb with ⟨c, hc, rfl⟩
    rw [hpaths₁]
    exact List.mem_append_left _ (h.source_mem c (h.safe_sublist.subset hc))
  rcases moves_run (targetRun_of_renames hrename) h.independent_safe hsources with ⟨hrenamed, _⟩
  have hlast := descriptions_run (targetRun_of_documentation hdescribe)
    fun p hp => (List.mem_filter.mp hp).1
  have htargets : (suggestedMoves f.safe).map Prod.snd = f.safe.map Suggestion.target := by
    simp [suggestedMoves, Function.comp_def]
  rw [allSucceeded_append, allSucceeded_append, hrenamed, hpaths₁, htargets]
  simp [hfirst, hlast.1, Fits]

/-! ## The progressive scenario -/

theorem gaps_canonical {p : String} (hp : p ∈ f.gaps) :
    ∃ n, Naming.strict? p = some n ∧ n.path = p := by
  rw [h.gaps_eq] at hp
  rcases List.mem_map.mp hp with ⟨cell, _, rfl⟩
  refine ⟨_, Naming.strict?_path fun word hword => ?_, Naming.path_normalized _⟩
  cases hword

/-- No gap lies at a path that is moved away. -/
theorem gaps_apart {p : String} (hp : p ∈ f.gaps) : p ∉ f.relocations.map Prod.fst := by
  rcases h.gaps_canonical hp with ⟨n, hn, hpath⟩
  rw [relocations_eq, List.map_append, List.mem_append, not_or]
  constructor
  · intro hmem
    rcases List.mem_map.mp hmem with ⟨b, hb, rfl⟩
    rcases (h.nonCanonical_iff b.1 b.2).mp hb with ⟨_, hne, n', hn', hpath'⟩
    rw [hn] at hn'
    cases hn'
    exact hne (hpath'.symm.trans hpath)
  · intro hmem
    rw [h.strict?_eq_none_of_mem_suggested hmem] at hn
    cases hn

theorem allSucceeded_progressive
    (hrun : DraftRun ((progressivePhases f).flatMap PhaseDraft.actions) s s' ops) :
    AllSucceeded ops ↔ f.Fits s .progressive := by
  rcases hrun.cons_inv with ⟨s₁, ops₁, _, hcreate, htail₁, rfl⟩
  rcases htail₁.cons_inv with ⟨s₂, ops₂, _, hrename, htail₂, rfl⟩
  rcases htail₂.cons_inv with ⟨s₃, ops₃, _, hrestructure, htail₃, rfl⟩
  rcases htail₃.cons_inv with ⟨s₄, ops₄, _, hfill, htail₄, rfl⟩
  rcases htail₄.cons_inv with ⟨s₅, ops₅, _, hdescribe, htail₅, rfl⟩
  cases htail₅
  have hperm : f.relocations.Perm (suggestedMoves f.suggestions ++ f.nonCanonical) :=
    List.perm_append_comm
  obtain ⟨hfirst, hmoved, hpaths₃⟩ := h.relocations_run hperm (targetRun_of_placeholders hcreate)
    (targetRun_of_renames hrename) (targetRun_of_restructure h.nonCanonical_strict hrestructure)
  rcases creations_run (targetRun_of_placeholders hfill) with ⟨hfilled, _⟩
  have hlast := descriptions_run (targetRun_of_documentation hdescribe)
    fun p hp => (List.mem_filter.mp hp).1
  have hsplit : AllSucceeded (ops₁ ++ (ops₂ ++ (ops₃ ++ (ops₄ ++ (ops₅ ++ []))))) ↔
      AllSucceeded (ops₂ ++ ops₃) ∧ AllSucceeded ops₄ := by
    simp [hfirst, hlast.1, and_assoc]
  rw [hsplit, hfilled]
  -- The gaps are filled in a store that the moved tokens have left; no gap is where one was.
  have hgaps : AllSucceeded (ops₂ ++ ops₃) →
      ((s₃.paths ++ f.gaps).Nodup ↔ f.Fits s .progressive) := by
    intro hmoves
    rw [((hpaths₃ hmoves).append_right f.gaps).nodup_iff, List.append_assoc,
      Text.nodup_filter_append_iff h.nodup_unresolved, ← List.append_assoc]
    · exact Iff.rfl
    · intro p hp
      have hout : p ∉ f.relocations.map Prod.fst := by
        rcases List.mem_append.mp hp with hp | hp
        · exact fun hmem => h.independent_relocations.not_mem_targets hmem hp
        · exact h.gaps_apart hp
      simpa using hout
  constructor
  · exact fun hall => (hgaps hall.1).mp hall.2
  · intro hfits
    have hmoves := hmoved.mpr (List.nodup_append.mp hfits).1
    exact ⟨hmoves, (hgaps hmoves).mpr hfits⟩

/-! ## The comprehensive scenario -/

section

variable (hinj : ∀ x ∈ s.paths, ∀ y ∈ s.paths, f.relocated x = f.relocated y → x = y)
include hinj

theorem flatten_relocatedGroups :
    f.relocatedGroups.flatten.Sublist (f.redundant.flatten.map f.relocated) := by
  -- Different paths of a group get different places, so none of them drops out.
  have hkept : f.redundant.map (fun group => Text.firsts (group.map f.relocated)) =
      f.redundant.map (List.map f.relocated) := by
    refine List.map_congr_left fun group hgroup => Text.firsts_of_nodup ?_
    have hsub : group.Sublist f.redundant.flatten := List.sublist_flatten_of_mem hgroup
    refine (hsub.nodup h.redundant_nodup).map_on fun x hx y hy => ?_
    exact hinj x (h.redundant_mem x (hsub.subset hx)) y (h.redundant_mem y (hsub.subset hy))
  unfold relocatedGroups
  rw [hkept, List.map_flatten]
  exact List.filter_sublist.flatten

theorem nodup_relocatedGroups : f.relocatedGroups.flatten.Nodup := by
  refine (h.flatten_relocatedGroups hinj).nodup (h.redundant_nodup.map_on fun x hx y hy => ?_)
  exact hinj x (h.redundant_mem x hx) y (h.redundant_mem y hy)

theorem relocatedGroups_mem {p : String} (hp : p ∈ f.relocatedGroups.flatten) :
    p ∈ s.paths.map f.relocated := by
  rcases List.mem_map.mp ((h.flatten_relocatedGroups hinj).subset hp) with ⟨x, hx, rfl⟩
  exact List.mem_map_of_mem (h.redundant_mem x hx)

theorem nodup_relocatedOrphans : f.relocatedOrphans.Nodup := by
  unfold relocatedOrphans
  refine List.Nodup.filter _ ((h.orphans_sublist.nodup s.nodup_paths).map_on fun x hx y hy => ?_)
  exact hinj x (h.orphans_sublist.subset hx) y (h.orphans_sublist.subset hy)

end

theorem relocatedOrphans_mem {p : String} (hp : p ∈ f.relocatedOrphans) :
    p ∈ s.paths.map f.relocated ∧ p ∉ f.mergedAway := by
  rcases List.mem_filter.mp hp with ⟨hmem, hkept⟩
  rcases List.mem_map.mp hmem with ⟨x, hx, rfl⟩
  refine ⟨List.mem_map_of_mem (h.orphans_sublist.subset hx), fun haway => ?_⟩
  rcases List.mem_flatMap.mp haway with ⟨group, hgroup, htail⟩
  have hflat : f.relocated x ∈ f.relocatedGroups.flatten :=
    List.mem_flatten.mpr ⟨group, hgroup, List.mem_of_mem_tail htail⟩
  simp [hflat] at hkept

/-- Once all tokens have moved, the merges succeed and leave the paths that are not merged away. -/
theorem merges_after_moves {s₃ s₄ : OpenStore}
    (hnodup : (s.paths ++ f.unresolved ++ f.relocations.map Prod.snd).Nodup)
    (hmem₃ : ∀ p, p ∈ s₃.paths ↔ p ∈ f.unresolved ++ s.paths.map f.relocated)
    (hmerge : DraftRun (f.relocatedGroups.map Draft.merge) s₃ s₄ ops) :
    AllSucceeded ops ∧ ∀ p, p ∈ s₄.paths ↔
      p ∈ f.unresolved ++ s.paths.map f.relocated ∧ p ∉ f.mergedAway := by
  have hinj := h.injOn_relocated hnodup
  obtain ⟨hmerged, hpaths₄⟩ := merges_run hmerge (h.nodup_relocatedGroups hinj)
    (fun p hp => (hmem₃ p).mpr (List.mem_append_right _ (h.relocatedGroups_mem hinj hp)))
    fun group hgroup => by simpa using (List.mem_filter.mp hgroup).2
  refine ⟨hmerged, fun p => ?_⟩
  rw [hpaths₄, List.mem_filter, hmem₃]
  simp [mergedAway]

omit h in
/-- After the merges a path can be created if nothing was left there: no placeholder, and no token
but a merged one. -/
theorem creatable_after_merges {s₄ : OpenStore} {targets : List String}
    (hmem₄ : ∀ p, p ∈ s₄.paths ↔
      p ∈ f.unresolved ++ s.paths.map f.relocated ∧ p ∉ f.mergedAway) :
    (s₄.paths ++ targets).Nodup ↔ targets.Nodup ∧ ∀ p ∈ targets,
      p ∈ f.unresolved ++ s.paths.map f.relocated → p ∈ f.mergedAway := by
  rw [List.nodup_append]
  constructor
  · intro hall
    rcases hall with ⟨_, hnew, happart⟩
    refine ⟨hnew, fun p hp hold => ?_⟩
    by_contra hkept
    exact happart p ((hmem₄ p).mpr ⟨hold, hkept⟩) p hp rfl
  · intro hfits
    rcases hfits with ⟨hnew, haway⟩
    refine ⟨s₄.nodup_paths, hnew, ?_⟩
    rintro p hp q hq rfl
    rcases (hmem₄ p).mp hp with ⟨hold, hkept⟩
    exact hkept (haway p hq hold)

/-- The phases up to the last creation, and the orphans that they leave. -/
theorem comprehensive_prefix
    (hrun : DraftRun (((comprehensivePhases f).take 4).flatMap PhaseDraft.actions) s s' ops) :
    (AllSucceeded ops ↔ f.Fits s .comprehensive) ∧
      (AllSucceeded ops → ∀ p ∈ f.relocatedOrphans, p ∈ s'.paths) := by
  rcases hrun.cons_inv with ⟨s₁, ops₁, _, hcreate, htail₁, rfl⟩
  rcases htail₁.cons_inv with ⟨s₂, ops₂, _, hrestructure, htail₂, rfl⟩
  rcases htail₂.cons_inv with ⟨s₃, ops₃, rest, hrename, htail₃, rfl⟩
  have hlater : DraftRun (f.relocatedGroups.map Draft.merge ++
      [.placeholders f.gaps "coverage gaps",
        .placeholders f.missingDefaults "missing default states"]) s₃ s' rest := htail₃
  rcases hlater.append_inv with ⟨s₄, ops₄, _, hmerge, hcreations, rfl⟩
  rcases hcreations.cons_inv with ⟨s₅, ops₅, _, hfill, htail₅, rfl⟩
  rcases htail₅.cons_inv with ⟨s₆, ops₆, _, hdefaults, htail₆, rfl⟩
  cases htail₆
  obtain ⟨hfirst, hmoved, hpaths₃⟩ := h.relocations_run (List.Perm.refl _)
    (targetRun_of_placeholders hcreate)
    (targetRun_of_restructure h.nonCanonical_strict hrestructure) (targetRun_of_renames hrename)
  rcases (creations_run (targetRun_of_placeholders hfill)).append
    (creations_run (targetRun_of_placeholders hdefaults)) with ⟨hcreated, hpaths₆⟩
  have hsplit : AllSucceeded (ops₁ ++ (ops₂ ++ (ops₃ ++ (ops₄ ++ (ops₅ ++ (ops₆ ++ [])))))) ↔
      AllSucceeded (ops₂ ++ ops₃) ∧ AllSucceeded ops₄ ∧ AllSucceeded (ops₅ ++ ops₆) := by
    simp [hfirst, and_assoc]
  rw [hsplit]
  by_cases hmoves : AllSucceeded (ops₂ ++ ops₃)
  · have hnodup := hmoved.mp hmoves
    rcases h.merges_after_moves hnodup
      (fun p => (hpaths₃ hmoves).mem_iff.trans h.mem_relocated_iff) hmerge with ⟨hmerged, hmem₄⟩
    constructor
    · rw [and_iff_right hmoves, and_iff_right hmerged, hcreated, creatable_after_merges hmem₄]
      exact (and_iff_right hnodup).symm
    · intro hall p hp
      rcases hall with ⟨_, _, hcreations⟩
      rcases h.relocatedOrphans_mem hp with ⟨hold, hkept⟩
      rw [hpaths₆ hcreations]
      exact List.mem_append_left _ ((hmem₄ p).mpr ⟨List.mem_append_right _ hold, hkept⟩)
  · have hnot : ¬ f.Fits s .comprehensive := fun hfits => hmoves (hmoved.mpr hfits.1)
    exact ⟨iff_of_false (fun hall => hmoves hall.1) hnot, fun hall => absurd hall.1 hmoves⟩

/-- The orphans are deleted last; then nothing is left that could fail. -/
theorem allSucceeded_comprehensive {s₄ : OpenStore} {rest : List Operation}
    (hfirstFour : DraftRun (((comprehensivePhases f).take 4).flatMap PhaseDraft.actions) s s₄ ops)
    (hrest : DraftRun [.deletion f.relocatedOrphans, .documentation Check.all] s₄ s' rest) :
    AllSucceeded (ops ++ rest) ↔
      f.Fits s .comprehensive ∧ s₄.DeletableInOrder f.relocatedOrphans := by
  rcases h.comprehensive_prefix hfirstFour with ⟨hfits, horphans⟩
  rcases hrest.cons_inv with ⟨s₅, ops₅, _, hdelete, htail₅, rfl⟩
  rcases htail₅.cons_inv with ⟨s₆, ops₆, _, hdescribe, htail₆, rfl⟩
  cases htail₆
  have hlast := descriptions_run (targetRun_of_documentation hdescribe)
    fun p hp => (List.mem_filter.mp hp).1
  rw [allSucceeded_append, hfits]
  refine and_congr_right fun hf => ?_
  have hdeleted := deletions_run (targetRun_of_deletion hdelete)
    (h.nodup_relocatedOrphans (h.injOn_relocated hf.1)) (horphans (hfits.mpr hf))
  simp [hdeleted, hlast.1]

end DrawnFrom
end Findings

/-! ## Whole scenarios -/

open Store Operation

/-- Every planned scenario can be run on the store that was planned.  It is completed, with every
operation successful, exactly if the paths that it puts tokens at fit and, in the comprehensive
scenario, what refers to an orphan after the first four phases is an orphan deleted before it. -/
theorem completed_iff_fits {α : Type} [Scalar α] {c : Settings α} {o : RunOptions}
    (hsound : c.grading.isSound = true) (hdry : o.dryRun = false) (hstop : o.stopOnError = false)
    (s : OpenStore) (check : ContrastChecker α) (a : Approach) :
    ∃ p sc, s.plan? c check = .ok p ∧ p.scenario? a = some sc ∧
      let f := Findings.ofAudit p.audit c.migration.safeRename
      let run := s.execute o a sc.phases
      ((run.2.status = .completed ∧ ∀ op ∈ run.2.operations, op.succeeded = true) ↔
        f.Fits s a ∧ (a = .comprehensive →
          (s.execute o a (sc.phases.take 4)).1.DeletableInOrder f.relocatedOrphans)) := by
  refine ⟨_, _, plan?_eq_ok hsound s check, s.scenario?_plan c check a, ?_⟩
  let f := Findings.ofAudit (s.auditWith c check) c.migration.safeRename
  have hf : f.DrawnFrom s := Findings.drawnFrom_ofAudit s c check _
  have hphases : (s.plannedScenario c check a).phases = phasesOf a (f.phases a) :=
    scenarioFor_phases _ _ _ a
  have hrun := execute_drafts hdry hstop s a (f.merge_targets_ne_nil a)
  dsimp only
  rw [hphases, execute_completed_iff hstop, and_self]
  change AllSucceeded _ ↔ f.Fits s a ∧ _
  cases a with
  | conservative =>
    rw [hf.allSucceeded_conservative hrun]
    simp
  | progressive =>
    rw [hf.allSucceeded_progressive hrun]
    simp
  | comprehensive =>
    have hcut : (f.phases .comprehensive).flatMap PhaseDraft.actions =
        ((comprehensivePhases f).take 4).flatMap PhaseDraft.actions ++
          [.deletion f.relocatedOrphans, .documentation Check.all] := by
      conv_lhs => rw [← List.take_append_drop 4 (f.phases .comprehensive), List.flatMap_append]
      rfl
    have htake : (phasesOf .comprehensive (f.phases .comprehensive)).take 4 =
        phasesOf .comprehensive ((comprehensivePhases f).take 4) := rfl
    have hearly := execute_drafts hdry hstop s .comprehensive fun d hd =>
      f.merge_targets_ne_nil .comprehensive d (hcut ▸ List.mem_append_left _ hd)
    rw [hcut] at hrun
    rcases hrun.append_inv with ⟨s₄, first, rest, hfirstFour, hrest, hops⟩
    -- The first phases by themselves leave the store in which the rest runs on.
    rcases hfirstFour.unique hearly with ⟨hstore, _⟩
    rw [hops, hf.allSucceeded_comprehensive hfirstFour hrest, htake, hstore]
    exact and_congr_right fun _ => ⟨fun h _ => h, fun h => h rfl⟩

/-- A store whose only token refers to a path that is also the path of a coverage gap. -/
def danglingGap : OpenStore :=
  ⟨[{ path := "x", value := .text "\x7bbackground.action.base\x7d" }], by decide⟩

/-- The placeholder for the missing path then takes the place of the token for the gap, so the
progressive scenario does not run through. -/
theorem completed_iff_fits_danglingGap :
    ∃ (c : Settings Rat) (check : ContrastChecker Rat) (o : RunOptions) (p : Plan Rat)
      (sc : Scenario Rat), c.grading.isSound = true ∧ o.dryRun = false ∧ o.stopOnError = false ∧
      danglingGap.plan? c check = .ok p ∧ p.scenario? .progressive = some sc ∧
      ¬ ((danglingGap.execute o .progressive sc.phases).2.status = .completed ∧
        ∀ op ∈ (danglingGap.execute o .progressive sc.phases).2.operations,
          op.succeeded = true) := by
  have hsound : (Settings.standard : Settings Rat).grading.isSound = true := by decide +kernel
  let check : ContrastChecker Rat := fun _ _ => none
  let o : RunOptions := {}
  have hdry : o.dryRun = false := rfl
  have hstop : o.stopOnError = false := rfl
  rcases completed_iff_fits hsound hdry hstop danglingGap check .progressive with
    ⟨p, sc, hplan, hsc, hiff⟩
  refine ⟨.standard, check, o, p, sc, hsound, hdry, hstop, hplan, hsc, fun hdone => ?_⟩
  have hfits := (hiff.mp hdone).1
  rw [plan?_eq_ok hsound] at hplan
  cases hplan
  let f := Findings.ofAudit (danglingGap.auditWith (.standard : Settings Rat) check)
    (Settings.standard : Settings Rat).migration.safeRename
  have hplaceholder : "background.action.base" ∈ f.unresolved := Text.mem_sorted.mpr (by decide)
  have hgap : "background.action.base" ∈ f.gaps := by decide
  exact (List.nodup_append.mp hfits).2.2 _
    (List.mem_append_left _ (List.mem_append_right _ hplaceholder)) _ hgap rfl

end DesignTokens
