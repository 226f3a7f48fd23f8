import DesignTokens.Proofs.Audit.Coverage
import DesignTokens.Proofs.Migration.Accounting
import DesignTokens.Proofs.Migration.Carrying
import DesignTokens.Proofs.Migration.Completion

/-!
# The gaps that the comprehensive scenario leaves

The comprehensive scenario fills the coverage gaps of the store that was audited, but merges before
that and deletions after it can take the last token out of a required cell.  Renames start from
paths outside all cells and restructures stay inside one, so the tokens of a cell are those that it
held and those that were created or renamed into it, less the ones merged away or deleted.  Every
required cell has had one at some time, and it is a gap in the end exactly if none is left.
-/

namespace DesignTokens

/-! ## What goes into a cell and out of it -/

namespace Operation

/-- A successful creation or rename to some part of the paths. -/
def bringsInto (inside : String → Bool) (op : Operation) : Bool :=
  (op.kind = .create || op.kind = .rename) && op.succeeded && inside op.touched

/-- A successful merge or deletion of some part of the paths. -/
def takesFrom (inside : String → Bool) (op : Operation) : Bool :=
  (op.kind = .merge || op.kind = .delete) && op.succeeded && inside op.path

/-- What the planned moves have in common: renames start from paths that cannot be read strictly,
and restructures lead from a compliant path to the canonical one of its name. -/
structure Conforming (op : Operation) : Prop where
  rename : op.kind = .rename → Naming.strict? op.path = none
  restructure : op.kind = .restructure → op.succeeded = true →
    ∃ n, Naming.strict? op.path = some n ∧ op.newPath = some n.path

variable {x : UxContext} {k : PropertyClass} {ops : List Operation}

/-- A move of a plan leaves no cell other than for the same one. -/
theorem Conforming.toNat_add {op : Operation} (h : Conforming op) :
    (op.departure?.any (inCell x k)).toNat + (op.bringsInto (inCell x k)).toNat =
      (op.arrival?.any (inCell x k)).toNat + (op.takesFrom (inCell x k)).toNat := by
  cases hsucceeded : op.succeeded with
  | false => simp [departure?, arrival?, bringsInto, takesFrom, hsucceeded]
  | true =>
    cases hkind : op.kind with
    | rename =>
      have hout := inCell_of_strict?_eq_none (x := x) (k := k) (h.rename hkind)
      cases hnew : op.newPath <;>
        simp [departure?, arrival?, bringsInto, takesFrom, touched, hsucceeded, hkind, hnew, hout]
    | restructure =>
      rcases h.restructure hkind hsucceeded with ⟨n, hn, hnew⟩
      simp [departure?, arrival?, bringsInto, takesFrom, hsucceeded, hkind, hnew, inCell_path hn]
    | _ => simp [departure?, arrival?, bringsInto, takesFrom, hsucceeded, hkind]

theorem countP_conforming (h : ∀ op ∈ ops, Conforming op) :
    ops.countP (fun op => op.departure?.any (inCell x k)) + ops.countP (bringsInto (inCell x k)) =
      ops.countP (fun op => op.arrival?.any (inCell x k)) +
        ops.countP (takesFrom (inCell x k)) := by
  induction ops with
  | nil => rfl
  | cons op ops ih =>
    rcases List.forall_mem_cons.mp h with ⟨hop, hops⟩
    have hone := hop.toNat_add (x := x) (k := k)
    have hrest := ih hops
    have hcons : ∀ f : Operation → Bool,
        (op :: ops).countP f = (f op).toNat + ops.countP f := by
      intro f
      cases hf : f op <;> simp [hf, Nat.add_comm]
    simp only [hcons]
    omega

end Operation

open Store Operation

theorem Store.Accounted.cell {s s' : OpenStore} {ops : List Operation} (h : Accounted s s' ops)
    (hops : ∀ op ∈ ops, Conforming op) (x : UxContext) (k : PropertyClass) :
    s'.paths.countP (inCell x k) + ops.countP (takesFrom (inCell x k)) =
      s.paths.countP (inCell x k) + ops.countP (bringsInto (inCell x k)) := by
  have hbalance := h.countP (inCell x k)
  have hmoves := countP_conforming hops (x := x) (k := k)
  omega

/-! ## What the comprehensive scenario does -/

namespace Findings

variable {α : Type} {f : Findings α} {s s' : OpenStore} {ops : List Operation}
  {x : UxContext} {k : PropertyClass} {p : String}

/-- The moves, merges and deletions of a plan are those of its findings. -/
structure Plans (f : Findings α) (op : Operation) : Prop where
  rename : op.kind = .rename → op.path ∈ (suggestedMoves f.suggestions).map Prod.fst
  restructure : op.kind = .restructure → ∃ b ∈ f.nonCanonical, op.path = b.1 ∧
    (op.succeeded = true → b.1 ≠ b.2 → op.newPath = some b.2)
  merge : op.kind = .merge → op.succeeded = true → op.path ∈ f.mergedAway
  delete : op.kind = .delete → op.path ∈ f.relocatedOrphans

/-- Some token of the cell has a place that is neither merged away nor deleted, or the cell is a gap
that is filled at a path that is not deleted. -/
def Keeps (f : Findings α) (s : OpenStore) (x : UxContext) (k : PropertyClass) : Prop :=
  (∃ p ∈ s.paths, inCell x k p = true ∧
    f.relocated p ∉ f.mergedAway ∧ f.relocated p ∉ f.relocatedOrphans) ∨
  (¬ s.Covers x k ∧ (missingCell x k).suggestedPath ∉ f.relocatedOrphans)

theorem mem_mergedAway {group : List String} (hgroup : group ∈ f.relocatedGroups)
    (hp : p ∈ group.tail) : p ∈ f.mergedAway :=
  List.mem_flatMap.mpr ⟨group, hgroup, hp⟩

theorem plans_of_kind {op : Operation} (h : op.kind = .create ∨ op.kind = .updateReferences) :
    f.Plans op := by
  rcases h with h | h <;> constructor <;> simp [h]

namespace DrawnFrom

variable (h : f.DrawnFrom s)
include h

theorem plans_comprehensive {s₁ s₂ : OpenStore}
    (hrun : DraftRun ((comprehensivePhases f).flatMap PhaseDraft.actions) s₁ s₂ ops) :
    ∀ op ∈ ops, f.Plans op := by
  refine hrun.forall_operations fun d hd s₁ s₂ ops haction op hop => ?_
  have hkind : op.kind = d.kind := (recorded_runAction haction).1 op hop
  simp only [comprehensivePhases, List.flatMap_cons, List.flatMap_nil, List.mem_append,
    List.mem_cons, List.mem_map, List.not_mem_nil, or_false] at hd
  rcases hd with rfl | rfl | (rfl | ⟨group, hgroup, rfl⟩) | (rfl | rfl) | rfl | rfl
  case inr.inl =>
    rcases moves_operations (.inr rfl) (targetRun_of_restructure h.nonCanonical_strict haction)
      op hop with ⟨b, hb, hmove, hpath, hnew⟩
    exact ⟨by simp [hmove], fun _ => ⟨b, hb, hpath, hnew⟩, by simp [hmove], by simp [hmove]⟩
  case inr.inr.inl.inl =>
    rcases moves_operations (.inl rfl) (targetRun_of_renames haction) op hop with
      ⟨b, hb, hmove, hpath, _⟩
    have hsource : op.path ∈ (suggestedMoves f.suggestions).map Prod.fst :=
      hpath ▸ List.mem_map_of_mem hb
    exact ⟨fun _ => hsource, by simp [hmove], by simp [hmove], by simp [hmove]⟩
  case inr.inr.inl.inr =>
    have hmerge : op.kind = .merge := hkind
    exact ⟨by simp [hmerge], by simp [hmerge],
      fun _ hsucceeded => mem_mergedAway hgroup (merge_operations haction op hop hsucceeded),
      by simp [hmerge]⟩
  case inr.inr.inr.inr.inl =>
    have hdelete : op.kind = .delete := hkind
    rcases (targetRun_of_deletion haction).exists_target (P := fun p op => op.path = p)
      (fun _ _ _ _ _ hstep => (recorded_deleteTarget hstep).path_eq) op hop with ⟨p, hp, rfl⟩
    exact ⟨by simp [hdelete], by simp [hdelete], by simp [hdelete], fun _ => hp⟩
  -- The other drafts create tokens or describe them.
  case inr.inr.inr.inr.inr => exact plans_of_kind (.inr hkind)
  all_goals exact plans_of_kind (.inl hkind)

omit h in
/-- Only the sources of moves and the merged and deleted paths of a plan are left. -/
theorem departure?_of_plans {op : Operation} (hop : f.Plans op) (hp : op.departure? = some p) :
    p ∈ f.relocations.map Prod.fst ∨ p ∈ f.mergedAway ∨ p ∈ f.relocatedOrphans := by
  rcases departure?_eq_some hp with ⟨hsucceeded, rfl, hkind⟩
  rw [relocations_eq, List.map_append, List.mem_append]
  rcases hkind with hkind | hkind | hkind | hkind
  · exact .inl (.inr (hop.rename hkind))
  · rcases hop.restructure hkind with ⟨b, hb, hpath, _⟩
    exact .inl (.inl (hpath ▸ List.mem_map_of_mem hb))
  · exact .inr (.inl (hop.merge hkind hsucceeded))
  · exact .inr (.inr (hop.delete hkind))

theorem conforming_of_plans {op : Operation} (hop : f.Plans op) : Conforming op where
  rename hkind := h.strict?_eq_none_of_mem_suggested (hop.rename hkind)
  restructure hkind hsucceeded := by
    rcases hop.restructure hkind with ⟨b, hb, hpath, hnew⟩
    rcases (h.nonCanonical_iff b.1 b.2).mp hb with ⟨_, hne, n, hn, hcanonical⟩
    exact ⟨n, by rw [hpath, hn], by rw [hnew hsucceeded (Ne.symm hne), hcanonical]⟩

/-! ### Cells that are filled -/

omit h in
/-- When the gaps have been filled, their paths are taken. -/
theorem gaps_mem_of_prefix
    (hrun : DraftRun (((comprehensivePhases f).take 4).flatMap PhaseDraft.actions) s s' ops) :
    ∀ p ∈ f.gaps, p ∈ s'.paths := by
  rcases hrun.cons_inv with ⟨s₁, ops₁, _, _, htail₁, rfl⟩
  rcases htail₁.cons_inv with ⟨s₂, ops₂, _, _, htail₂, rfl⟩
  rcases htail₂.cons_inv with ⟨s₃, ops₃, rest, _, htail₃, rfl⟩
  have hlater : DraftRun (f.relocatedGroups.map Draft.merge ++
      [.placeholders f.gaps "coverage gaps",
        .placeholders f.missingDefaults "missing default states"]) s₃ s' rest := htail₃
  rcases hlater.append_inv with ⟨s₄, ops₄, _, _, hcreations, rfl⟩
  rcases hcreations.cons_inv with ⟨s₅, ops₅, _, hfill, htail₅, rfl⟩
  rcases htail₅.cons_inv with ⟨s₆, ops₆, _, hdefaults, htail₆, rfl⟩
  cases htail₆
  intro p hp
  have hfilled := (creations_carried (targetRun_of_placeholders hfill)).2.2 p hp
  exact (creations_carried (targetRun_of_placeholders hdefaults)).1.place_mem hfilled

/-- A run cut where the gaps have just been filled: a required cell that the store did not cover is
covered then, and what follows deletes orphans only. -/
theorem exists_filled (hrequired : k ∈ x.required) (hcovers : ¬ s.Covers x k)
    (hrun : DraftRun ((comprehensivePhases f).flatMap PhaseDraft.actions) s s' ops) :
    ∃ s₄ first rest, DraftRun (((comprehensivePhases f).take 4).flatMap PhaseDraft.actions)
        s s₄ first ∧
      DraftRun [.deletion f.relocatedOrphans, .documentation Check.all] s₄ s' rest ∧
      ops = first ++ rest ∧ (missingCell x k).suggestedPath ∈ s₄.paths := by
  have hgap : (missingCell x k).suggestedPath ∈ f.gaps := by
    rw [h.gaps_eq]
    exact List.mem_map_of_mem ((missingCell_mem_gaps_iff hrequired).mpr hcovers)
  rw [← List.take_append_drop 4 (comprehensivePhases f), List.flatMap_append] at hrun
  rcases hrun.append_inv with ⟨s₄, first, rest, hfirst, hrest, rfl⟩
  exact ⟨s₄, first, rest, hfirst, hrest, rfl, gaps_mem_of_prefix hfirst _ hgap⟩

/-- Every required cell has had a token at some time: it held one, or its gap was filled. -/
theorem cell_filled (hrequired : k ∈ x.required)
    (hrun : DraftRun ((comprehensivePhases f).flatMap PhaseDraft.actions) s s' ops) :
    0 < s.paths.countP (inCell x k) + ops.countP (bringsInto (inCell x k)) := by
  by_cases hcovers : s.Covers x k
  · exact Nat.add_pos_left (covers_iff_countP.mp hcovers) _
  · have hplans := h.plans_comprehensive hrun
    rcases h.exists_filled hrequired hcovers hrun with ⟨s₄, first, rest, hfirst, _, rfl, hgap⟩
    have hcell := hfirst.accounted.cell
      (fun op hop => h.conforming_of_plans (hplans op (List.mem_append_left _ hop))) x k
    have hcovered : 0 < s₄.paths.countP (inCell x k) :=
      covers_iff_countP.mp (covers_of_suggestedPath_mem hgap)
    rw [List.countP_append]
    omega

/-! ### Cells that are kept -/

/-- After the restructures the place of a compliant token is taken.  It lies in the same cell, and
no move starts from it. -/
theorem relocated_mem_of_restructured {n : Name} {s₁ s₂ : OpenStore} {ops₁ ops₂ : List Operation}
    (hp : p ∈ s.paths) (hn : Naming.strict? p = some n)
    (hcreate : s.runAction false
      ((Draft.placeholders f.unresolved "unresolved references").toAction "") = (s₁, .ok ops₁))
    (hrestructure : s₁.runAction false
      ((Draft.restructure (f.nonCanonical.map Prod.fst)).toAction "") = (s₂, .ok ops₂)) :
    f.relocated p ∈ s₂.paths ∧ f.relocated p ∉ f.relocations.map Prod.fst ∧
      inCell x k (f.relocated p) = inCell x k p := by
  have hp₁ : p ∈ s₁.paths :=
    (creations_carried (targetRun_of_placeholders hcreate)).1.place_mem hp
  have hmoves := targetRun_of_restructure h.nonCanonical_strict hrestructure
  have hunsuggested : ∀ {q m}, Naming.strict? q = some m →
      q ∉ (suggestedMoves f.suggestions).map Prod.fst := by
    intro q m hq hmem
    rw [h.strict?_eq_none_of_mem_suggested hmem] at hq
    cases hq
  by_cases hmoved : p ∈ f.nonCanonical.map Prod.fst
  · rcases List.mem_map.mp hmoved with ⟨b, hb, rfl⟩
    rcases h.nonCanonical_strict b hb with ⟨m, hm, hpath⟩
    have hback : Naming.strict? b.2 = some m.normalized :=
      hpath ▸ Naming.strict?_path_of_strict? hm
    rw [h.relocated_of_mem (List.mem_append_left _ hb)]
    refine ⟨moves_reach (by decide) hmoves h.independent_nonCanonical b hb hp₁, ?_, ?_⟩
    · rw [relocations_eq, List.map_append, List.mem_append, not_or]
      exact ⟨h.not_mem_nonCanonical hb, hunsuggested hback⟩
    · rw [← hpath, inCell_path hm]
  · have hout : p ∉ f.relocations.map Prod.fst := by
      rw [relocations_eq, List.map_append, List.mem_append, not_or]
      exact ⟨hmoved, hunsuggested hn⟩
    rw [relocated_of_not_mem hout]
    rcases moves_carried (by decide) hmoves h.independent_nonCanonical with
      ⟨_, place, hcarried, hplace⟩
    have hstays : place p = p := (hplace p hp₁).resolve_right fun hmem =>
      hmoved (List.mem_map_of_mem (f := Prod.fst) hmem)
    exact ⟨hstays ▸ hcarried.place_mem hp₁, hout, rfl⟩

/-- A cell that the plan keeps is covered in the end. -/
theorem covers_of_keeps (hrequired : k ∈ x.required) (hkeeps : f.Keeps s x k)
    (hrun : DraftRun ((comprehensivePhases f).flatMap PhaseDraft.actions) s s' ops) :
    s'.Covers x k := by
  rcases hkeeps with ⟨p, hp, hcell, hmerged, horphan⟩ | ⟨hcovers, horphan⟩
  · have hplans := h.plans_comprehensive hrun
    rcases hrun.cons_inv with ⟨s₁, ops₁, _, hcreate, htail₁, rfl⟩
    rcases htail₁.cons_inv with ⟨s₂, ops₂, rest, hrestructure, hrest, rfl⟩
    rcases exists_strict?_of_inCell hcell with ⟨n, hn⟩
    rcases h.relocated_mem_of_restructured (x := x) (k := k) hp hn hcreate hrestructure with
      ⟨hplace, hout, hsame⟩
    -- From here on nothing takes a token from that place.
    have hstays : f.relocated p ∈ s'.paths := by
      refine hrest.accounted.mem_paths hplace fun op hop hdeparture => ?_
      have hop' := hplans op (List.mem_append_right _ (List.mem_append_right _ hop))
      rcases departure?_of_plans hop' hdeparture with hmoved | haway | hdeleted
      · exact hout hmoved
      · exact hmerged haway
      · exact horphan hdeleted
    exact covers_iff_countP.mpr (List.countP_pos_iff.mpr ⟨_, hstays, hsame.trans hcell⟩)
  · rcases h.exists_filled hrequired hcovers hrun with ⟨s₄, first, rest, _, hrest, rfl, hgap⟩
    refine covers_of_suggestedPath_mem (hrest.accounted.mem_paths hgap ?_)
    -- After the gaps are filled only orphans are deleted.
    refine hrest.forall_operations fun d hd s₁ s₂ ops haction op hop hdeparture => ?_
    rcases departure?_eq_some hdeparture with ⟨_, hpath, hkind⟩
    rcases List.mem_pair.mp hd with rfl | rfl
    · rcases (targetRun_of_deletion haction).exists_target (P := fun p op => op.path = p)
        (fun _ _ _ _ _ hstep => (recorded_deleteTarget hstep).path_eq) op hop with ⟨q, hq, hqpath⟩
      exact horphan (hpath ▸ hqpath ▸ hq)
    · have hdescribe : op.kind = .updateReferences := (recorded_runAction haction).1 op hop
      simp [hdescribe] at hkind

end DrawnFrom
end Findings

/-! ## The gaps of the result -/

/-- After the comprehensive scenario is run on the store that was planned, a required cell is a gap
exactly if merges and deletions have taken as many tokens out of it as it held and as creations and
renames brought into it; there is at least one of these.  A cell is no gap if the plan keeps it:
if some token of it is neither merged away nor deleted, or if its gap is filled for good. -/
theorem comprehensive_gaps_iff_taken {α : Type} [Scalar α] {c : Settings α} {o : RunOptions}
    (hsound : c.grading.isSound = true) (hdry : o.dryRun = false) (hstop : o.stopOnError = false)
    (s : OpenStore) (check : ContrastChecker α) :
    ∃ p sc, s.plan? c check = .ok p ∧ p.scenario? .comprehensive = some sc ∧
      let f := Findings.ofAudit p.audit c.migration.safeRename
      let run := s.execute o .comprehensive sc.phases
      let had := fun x k => s.paths.countP (inCell x k) +
        run.2.operations.countP (bringsInto (inCell x k))
      let taken := fun x k => run.2.operations.countP (takesFrom (inCell x k))
      (run.1.coverage.gaps = [] ↔ ∀ x, ∀ k ∈ x.required, taken x k < had x k) ∧
      ∀ x, ∀ k ∈ x.required,
        0 < had x k ∧ (missingCell x k ∈ run.1.coverage.gaps ↔ taken x k = had x k) ∧
          (f.Keeps s x k → missingCell x k ∉ run.1.coverage.gaps) := by
  refine ⟨_, _, plan?_eq_ok hsound s check, s.scenario?_plan c check .comprehensive, ?_⟩
  let f := Findings.ofAudit (s.auditWith c check) c.migration.safeRename
  have hf : f.DrawnFrom s := Findings.drawnFrom_ofAudit s c check _
  have hphases : (s.plannedScenario c check .comprehensive).phases =
      phasesOf .comprehensive (f.phases .comprehensive) := rfl
  have hrun := execute_drafts hdry hstop s .comprehensive (f.merge_targets_ne_nil .comprehensive)
  have hplans := hf.plans_comprehensive hrun
  have hcell := hrun.accounted.cell fun op hop => hf.conforming_of_plans (hplans op hop)
  dsimp only
  rw [hphases]
  constructor
  · rw [gaps_eq_nil_iff]
    refine forall_congr' fun x => forall₂_congr fun k _ => ?_
    have hxk := hcell x k
    rw [covers_iff_countP]
    constructor <;> intro h <;> omega
  · intro x k hrequired
    have hxk := hcell x k
    refine ⟨hf.cell_filled hrequired hrun, ?_, fun hkeeps => ?_⟩
    · rw [missingCell_mem_gaps_iff hrequired, covers_iff_countP]
      constructor <;> intro h <;> omega
    · rw [missingCell_mem_gaps_iff hrequired, not_not]
      exact hf.covers_of_keeps hrequired hkeeps hrun

/-- Two contexts that spell out the same colour. -/
def sameColour : OpenStore :=
  ⟨[{ path := "background.action.accent", value := .color "#3B82F6" },
    { path := "background.surface.accent", value := .color "#3B82F6" }], by decide⟩

/-- Apart from the gaps, all that an audit finds there is that the two tokens are redundant. -/
def sameColourFindings : Findings Rat where
  unresolved := []
  suggestions := []
  safe := []
  nonCanonical := []
  gaps := sameColour.coverage.gaps.map CoverageCell.suggestedPath
  missingDefaults := []
  redundant := [["background.action.accent", "background.surface.accent"]]
  orphans := []

theorem redundantGroups_sameColour :
    PatternReport.redundantGroups ⟨sameColour.redundancies sameColour.named⟩ =
      [["background.action.accent", "background.surface.accent"]] := by
  have hkeyed : (sameColour.named.filterMap fun t => (sameColour.valueKey? t).map fun v => (t, v)) =
      [(⟨{ path := "background.action.accent", value := .color "#3B82F6" },
          { propertyClass := .background, context := some .action, intent := .accent }, true⟩,
        "#3b82f6"),
       (⟨{ path := "background.surface.accent", value := .color "#3B82F6" },
          { propertyClass := .background, context := some .surface, intent := .accent }, true⟩,
        "#3b82f6")] := by
    decide +kernel
  unfold redundancies
  rw [hkeyed]
  simp [Text.groupBy, Text.firsts, PatternReport.redundantGroups, NamedToken.path]

theorem findings_sameColour (check : ContrastChecker Rat) :
    Findings.ofAudit (sameColour.auditWith (.standard : Settings Rat) check)
      (Settings.standard : Settings Rat).migration.safeRename = sameColourFindings := by
  let a := sameColour.auditWith (.standard : Settings Rat) check
  have hsorted : Text.sorted [] = [] := by simp [Text.sorted, Text.firsts]
  have hlinks : (a.links.links.filter fun l => !l.resolved).map Link.target = [] := by
    have hstore : (sameColour.links.filter fun l => !l.resolved).map Link.target = [] := by
      decide
    exact hstore
  have hcompliant : a.links.nodes.filterMap (fun n => Findings.canonicalFor? n.path) = [] := by
    have hstore : sameColour.paths.filterMap Findings.canonicalFor? = [] := by
      decide +kernel
    exact hstore
  have hsuggestions : a.suggestions = [] := by
    have hread : sameColour.paths.filterMap
        (Suggestion.ofPath? (Settings.standard : Settings Rat).grading) = [] := by decide +kernel
    have hnone : sameColour.suggestions (Settings.standard : Settings Rat).grading
        (Settings.standard : Settings Rat).audit.minConfidence = [] := by
      simp [Store.suggestions, Store.candidates, hread]
    exact hnone
  have hvariants : a.patterns.missingVariants = [] := by
    have hnone : PatternReport.missingVariants ⟨hoversOnly sameColour.named⟩ = [] := by
      rw [hoversOnly_eq_nil (by decide)]
      rfl
    exact (missingVariants_antiPatterns _ _ _).trans hnone
  simp only [Findings.ofAudit, sameColourFindings, Findings.mk.injEq]
  refine ⟨?_, hsuggestions, ?_, hcompliant, rfl, ?_, ?_, ?_⟩
  · rw [hlinks, hsorted]
  · rw [hsuggestions, List.filter_nil]
  · rw [hvariants, List.filterMap_nil, hsorted]
  · exact (redundantGroups_antiPatterns _ _ _).trans redundantGroups_sameColour
  · exact LinkGraph.orphans_eq_nil _ (by decide)

/-- Merging the two tokens takes the only one out of the second context, and a gap is left there,
but not in the first context, where the merged token is. -/
theorem comprehensive_gaps_iff_taken_sameColour :
    ∃ (c : Settings Rat) (check : ContrastChecker Rat) (o : RunOptions) (p : Plan Rat)
      (sc : Scenario Rat), c.grading.isSound = true ∧ o.dryRun = false ∧ o.stopOnError = false ∧
      sameColour.plan? c check = .ok p ∧ p.scenario? .comprehensive = some sc ∧
      missingCell .surface .background ∈
        (sameColour.execute o .comprehensive sc.phases).1.coverage.gaps ∧
      missingCell .action .background ∉
        (sameColour.execute o .comprehensive sc.phases).1.coverage.gaps := by
  have hsound : (Settings.standard : Settings Rat).grading.isSound = true := by decide +kernel
  let check : ContrastChecker Rat := fun _ _ => none
  let o : RunOptions := {}
  have hdry : o.dryRun = false := rfl
  have hstop : o.stopOnError = false := rfl
  rcases comprehensive_gaps_iff_taken hsound hdry hstop sameColour check with
    ⟨p, sc, hplan, hsc, _, hcells⟩
  refine ⟨.standard, check, o, p, sc, hsound, hdry, hstop, hplan, hsc, ?_⟩
  rw [plan?_eq_ok hsound] at hplan
  cases hplan
  rw [scenario?_plan] at hsc
  cases hsc
  have hphases : (sameColour.plannedScenario (.standard : Settings Rat) check
      .comprehensive).phases = phasesOf .comprehensive (comprehensivePhases sameColourFindings) := by
    rw [← findings_sameColour check]
    rfl
  have hkeeps : sameColourFindings.Keeps sameColour .action .background :=
    .inl ⟨"background.action.accent", by decide, by decide, by decide, by decide⟩
  rw [← findings_sameColour check] at hkeeps
  constructor
  · refine (hcells .surface .background (by decide)).2.1.mpr ?_
    rw [hphases]
    decide +kernel
  · exact (hcells .action .background (by decide)).2.2 hkeeps

end DesignTokens
