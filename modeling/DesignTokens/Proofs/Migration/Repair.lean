import DesignTokens.Proofs.Links.Report
import DesignTokens.Proofs.Migration.Comprehensive
import DesignTokens.Proofs.Store.Recognition

/-!
# Repairing broken references

Every scenario begins with placeholders for the missing paths that something refers to.  New tokens
change what counts as a reference, because a text by itself refers to a path as soon as the path is
there.  But such a reference is resolved from its beginning: what can be left open is a reference
between braces, and that counts whether or not its path is there.  So the references that the plan
has found are all that need repair, and the first phase leaves none of them open.
-/

namespace DesignTokens

variable {s s' : OpenStore} {ops : List Operation} {targets : List String}
  {value description path q : String}

namespace Token

/-- The token that a creation puts at a path. -/
def created (value description path : String) : Token :=
  { ofRaw path value with description := some description }

theorem not_embeds_placeholder : ¬ (created "" description path).Embeds q := by
  have hempty : (Value.infer "").text? = some "" := by decide +kernel
  rintro ⟨y, hy, hembedded⟩
  rw [created, ofRaw, hempty] at hy
  cases hy
  exact List.not_mem_nil hembedded

end Token

namespace Store

/-! ## Open links -/

/-- A link is open if its target stands between braces somewhere and is missing. -/
theorem exists_open_link_iff :
    (∃ l ∈ s.links, l.target = q ∧ l.resolved = false) ↔
      q ∉ s.paths ∧ ∃ t ∈ s.tokens, t.Embeds q := by
  constructor
  · rintro ⟨l, hl, rfl, hopen⟩
    rcases List.mem_flatMap.mp hl with ⟨t, ht, hlink⟩
    rcases List.mem_map.mp hlink with ⟨p, hp, rfl⟩
    refine ⟨contains_eq_false_iff.mp hopen, t, ht, ?_⟩
    rcases Token.mem_targets.mp hp with ⟨y, hy, hembedded | hbare⟩
    · exact ⟨y, hy, hembedded⟩
    · -- A path by itself is a target only if the store has it.
      obtain ⟨_, _, _, _, _, hknown⟩ := hbare
      exact absurd hknown (by simpa using hopen)
  · rintro ⟨hmissing, t, ht, y, hy, hembedded⟩
    refine ⟨⟨t.path, q, s.contains q⟩, ?_, rfl, contains_eq_false_iff.mpr hmissing⟩
    have htarget : q ∈ t.targets s.contains := Token.mem_targets.mpr ⟨y, hy, .inl hembedded⟩
    exact List.mem_flatMap.mpr ⟨t, ht, List.mem_map_of_mem htarget⟩

theorem unresolved_mem_defects_iff {t : LinkThresholds} {l : Link} :
    .unresolved l ∈ (s.linkReport t).defects ↔ l ∈ s.links ∧ l.resolved = false := by
  have hlinks := LinkGraph.filterMap_link?_report s.graph t
  have hsome : ∀ d : LinkDefect, d.link? = some l ↔ d = .unresolved l := by
    intro d
    cases d <;> simp [LinkDefect.link?]
  have hmem : l ∈ (s.linkReport t).defects.filterMap LinkDefect.link? ↔
      .unresolved l ∈ (s.linkReport t).defects := by
    simp [List.mem_filterMap, hsome]
  rw [← hmem, linkReport, hlinks, List.mem_filter]
  simp [graph]

/-! ## Creations that succeed -/

/-- Creations at free and distinct paths put their tokens last, one after the other. -/
theorem creations_at_free_paths
    (h : TargetRun (createTarget false value description) targets s s' ops)
    (hfree : (s.paths ++ targets).Nodup) :
    s'.tokens = s.tokens ++ targets.map (Token.created value description) ∧
      ops = targets.map fun p => { kind := .create, path := p } := by
  generalize hstep : createTarget false value description = step at h
  induction h with
  | nil s => simp
  | @cons p targets s s₁ s₂ op rest hop _ ih =>
    have hnew : p ∉ s.paths := fun hp =>
      (List.nodup_append.mp hfree).2.2 p hp p List.mem_cons_self rfl
    obtain ⟨s', hrun, htokens⟩ := createTarget_eq_of_free value description hnew
    rw [← hstep, hrun] at hop
    cases hop
    have hpaths : s₁.paths = s.paths ++ [p] := by
      rw [paths, htokens, List.map_append]
      rfl
    obtain ⟨hlater, hrest⟩ := ih (by simpa [hpaths] using hfree)
    exact ⟨by simp [hlater, htokens, Token.created], by simp [hrest]⟩

/-! ## The first phase -/

/-- Stopping at the first error makes no difference to a phase of at most one action. -/
theorem execute_stopOnError {p : Phase} (hp : p.actions.length ≤ 1) (o : RunOptions)
    (s : OpenStore) (a : Approach) (stop : Bool) :
    s.execute { o with stopOnError := stop } a [p] = s.execute o a [p] := by
  have hactions : runActions { o with stopOnError := stop } p.actions s =
      runActions o p.actions s := by
    match hacts : p.actions with
    | [] => rfl
    | [act] =>
      simp only [runActions, recordAction]
      split <;> simp
    | _ :: _ :: _ =>
      simp [hacts] at hp
  have hphase : s.runPhase { o with stopOnError := stop } p = s.runPhase o p := by
    rw [runPhase, runPhase, hactions]
  simp only [execute, runPhases, hphase]
  simp

/-- A phase of placeholders at free and distinct paths, whether or not the run stops at errors. -/
theorem execute_placeholders {o : RunOptions} (hdry : o.dryRun = false) (a : Approach)
    {d : PhaseDraft} {purpose : String} (hactions : d.actions = [.placeholders targets purpose])
    (hfree : (s.paths ++ targets).Nodup) :
    let run := s.execute o a [d.toPhase a 0]
    run.1.tokens = s.tokens ++
        targets.map (Token.created "" (Draft.placeholders targets purpose).description) ∧
      run.2.operations = targets.map (fun p => { kind := .create, path := p }) ∧
      run.2.status = .completed := by
  have hshort : (d.toPhase a 0).actions.length ≤ 1 := by
    have hkept := List.length_filter_le Draft.isUseful [.placeholders targets purpose]
    simpa [PhaseDraft.toPhase, hactions] using hkept
  have hdrafts : [d].flatMap PhaseDraft.actions = [.placeholders targets purpose] := by
    simp [hactions]
  have hmerge : ∀ e ∈ [d].flatMap PhaseDraft.actions, e.kind = .merge → e.targets ≠ [] := by
    simp [hdrafts, Draft.placeholders]
  rw [← execute_stopOnError hshort o s a false]
  generalize ho : ({ o with stopOnError := false } : RunOptions) = o'
  have hdry' : o'.dryRun = false := ho ▸ hdry
  have hstop : o'.stopOnError = false := ho ▸ rfl
  have hdone := execute_completed_iff hstop s a (phasesOf a [d])
  have hrun := execute_drafts hdry' hstop s a hmerge
  rw [hdrafts] at hrun
  rcases hrun.cons_inv with ⟨s₁, first, rest, hcreate, htail, hops⟩
  obtain ⟨htokens, hfirst⟩ := creations_at_free_paths (targetRun_of_placeholders hcreate) hfree
  rcases htail.unique (.nil s₁) with ⟨hstore, rfl⟩
  rw [List.append_nil, hfirst] at hops
  rw [hops] at hdone
  exact ⟨(congrArg tokens hstore).trans htokens, hops, hdone.mpr (by simp [Operation.succeeded])⟩

/-! ## Repairs -/

/-- What a run has done that repairs the references of a store: it has created tokens at the missing
paths that something refers to and done nothing else, all of it successfully; the tokens that were
there are as they were; and no link is left open. -/
structure Repairs (s : OpenStore) (run : OpenStore × Execution) : Prop where
  completed : run.2.status = .completed
  succeeded : ∀ op ∈ run.2.operations, op.kind = .create ∧ op.succeeded = true
  repaired : ∀ q, q ∈ run.2.operations.map Operation.path ↔
    ∃ l ∈ s.links, l.target = q ∧ l.resolved = false
  tokens : ∃ fresh, run.1.tokens = s.tokens ++ fresh ∧
    fresh.map Token.path = run.2.operations.map Operation.path
  resolved : ∀ t l, .unresolved l ∉ (run.1.linkReport t).defects

theorem Repairs.mem_paths {run : OpenStore × Execution} (h : Repairs s run) :
    q ∈ run.1.paths ↔ q ∈ s.paths ∨ ∃ l ∈ s.links, l.target = q ∧ l.resolved = false := by
  rcases h.tokens with ⟨fresh, htokens, hfresh⟩
  rw [paths, htokens, List.map_append, List.mem_append, hfresh, h.repaired]
  rfl

/-- Placeholders at the targets of the open links leave no link open. -/
theorem resolved_of_placeholders (hopen : ∀ q, q ∈ targets ↔
      ∃ l ∈ s.links, l.target = q ∧ l.resolved = false)
    (htokens : s'.tokens = s.tokens ++ targets.map (Token.created "" description)) :
    ∀ l ∈ s'.links, l.resolved = true := by
  intro l hl
  by_contra hunresolved
  have hunresolved : l.resolved = false := by simpa using hunresolved
  obtain ⟨hmissing, t, ht, hembeds⟩ := exists_open_link_iff.mp ⟨l, hl, rfl, hunresolved⟩
  have hpaths : s'.paths = s.paths ++ targets := by
    rw [paths, htokens, List.map_append, List.map_map]
    exact congrArg (s.paths ++ ·) (List.map_id _)
  rw [hpaths, List.mem_append, not_or] at hmissing
  rw [htokens, List.mem_append] at ht
  rcases ht with hold | hnew
  · -- What an old token embeds was found by the plan.
    have hfound := exists_open_link_iff.mpr ⟨hmissing.1, t, hold, hembeds⟩
    exact hmissing.2 ((hopen _).mpr hfound)
  · rcases List.mem_map.mp hnew with ⟨p, _, rfl⟩
    exact Token.not_embeds_placeholder hembeds

/-- A phase that creates placeholders at the targets of the open links repairs the store. -/
theorem repairs_of_placeholders {o : RunOptions} (hdry : o.dryRun = false) {a : Approach}
    {d : PhaseDraft} {purpose : String} (hactions : d.actions = [.placeholders targets purpose])
    (hnodup : targets.Nodup) (hopen : ∀ q, q ∈ targets ↔
      ∃ l ∈ s.links, l.target = q ∧ l.resolved = false) :
    Repairs s (s.execute o a [d.toPhase a 0]) := by
  have hfree : (s.paths ++ targets).Nodup := by
    rw [List.nodup_append]
    refine ⟨s.nodup_paths, hnodup, ?_⟩
    rintro p hp q hq rfl
    exact (exists_open_link_iff.mp ((hopen p).mp hq)).1 hp
  obtain ⟨htokens, hops, hdone⟩ := execute_placeholders hdry a hactions hfree
  have hpaths : (s.execute o a [d.toPhase a 0]).2.operations.map Operation.path = targets := by
    rw [hops, List.map_map]
    exact List.map_id _
  exact
    { completed := hdone
      succeeded := by
        rw [hops]
        simp [Operation.succeeded]
      repaired := by
        rw [hpaths]
        exact hopen
      tokens := by
        refine ⟨_, htokens, ?_⟩
        rw [hpaths, List.map_map]
        exact List.map_id _
      resolved := by
        intro t l hdefect
        obtain ⟨hl, hunresolved⟩ := unresolved_mem_defects_iff.mp hdefect
        rw [resolved_of_placeholders hopen htokens l hl] at hunresolved
        cases hunresolved }

end Store

/-! ## Planned scenarios -/

open Store

/-- A plan begins each scenario with placeholders for the missing paths that something refers
to. -/
theorem Findings.exists_phases_eq {α : Type} (f : Findings α) (a : Approach) :
    ∃ d rest, f.phases a = d :: rest ∧
      d.actions = [.placeholders f.unresolved "unresolved references"] := by
  cases a <;> exact ⟨_, _, rfl, rfl⟩

theorem Findings.mem_unresolved_ofAudit {α : Type} [Scalar α] {c : Settings α}
    {check : ContrastChecker α} {safeRename : α} :
    q ∈ (Findings.ofAudit (s.auditWith c check) safeRename).unresolved ↔
      ∃ l ∈ s.links, l.target = q ∧ l.resolved = false := by
  have hlinks : (s.auditWith c check).links.links = s.links := rfl
  rw [Findings.ofAudit, Text.mem_sorted, hlinks, List.mem_map]
  simp only [List.mem_filter, Bool.not_eq_true', and_assoc]
  exact exists_congr fun l => and_congr_right fun _ => and_comm

/-- With a sound grading every store can be planned, with a scenario for each approach, and the
first phase of each scenario repairs the references of the store. -/
theorem first_phase_repairs {α : Type} [Scalar α] {c : Settings α} {o : RunOptions}
    (hsound : c.grading.isSound = true) (hdry : o.dryRun = false) (s : OpenStore)
    (check : ContrastChecker α) :
    ∃ p, s.plan? c check = .ok p ∧ p.scenarios.map Scenario.approach = Approach.all ∧
      ∀ sc ∈ p.scenarios, ∃ first rest, sc.phases = first :: rest ∧
        Repairs s (s.execute o sc.approach [first]) := by
  refine ⟨_, plan?_eq_ok hsound s check, ?_, fun sc hsc => ?_⟩
  · simp [plan, scenariosFor, Approach.all, scenarioFor_approach]
  · rcases List.mem_map.mp hsc with ⟨a, _, rfl⟩
    have hfindings := Findings.drawnFrom_ofAudit s c check c.migration.safeRename
    obtain ⟨d, rest, hphases, hactions⟩ := Findings.exists_phases_eq
      (Findings.ofAudit (s.auditWith c check) c.migration.safeRename) a
    rw [scenarioFor_approach, scenarioFor_phases, hphases]
    refine ⟨d.toPhase a 0, _, by rw [phasesOf, List.zipIdx_cons, List.map_cons], ?_⟩
    exact repairs_of_placeholders hdry hactions hfindings.unresolved_nodup fun q =>
      Findings.mem_unresolved_ofAudit

/-- A store with two missing paths between braces, one of them with blanks and punctuation.  The
other one is also the whole text of a token, and no reference there as long as it is missing. -/
def missingTwice : OpenStore :=
  ⟨[{ path := "a", value := .text "\x7bno such, token!\x7d" },
    { path := "b", value := .text "1px \x7blate\x7d" },
    { path := "c", value := .text "late" }], by decide⟩

/-- The placeholder brings in a reference that the plan has not seen, and it is not open either. -/
theorem first_phase_repairs_missingTwice :
    ∃ (c : Settings Rat) (check : ContrastChecker Rat) (o : RunOptions) (p : Plan Rat)
      (sc : Scenario Rat) (first : Phase) (rest : List Phase), c.grading.isSound = true ∧
      o.dryRun = false ∧ o.stopOnError = true ∧ missingTwice.plan? c check = .ok p ∧
      sc ∈ p.scenarios ∧ sc.approach = .comprehensive ∧ sc.phases = first :: rest ∧
      let run := missingTwice.execute o sc.approach [first]
      "no such, token!" ∈ run.1.paths ∧ ¬ missingTwice.graph.Leads "c" "late" ∧
        run.1.graph.Leads "c" "late" ∧ ∀ t l, .unresolved l ∉ (run.1.linkReport t).defects := by
  have hsound : (Settings.standard : Settings Rat).grading.isSound = true := by decide +kernel
  let check : ContrastChecker Rat := fun _ _ => none
  let o : RunOptions := { stopOnError := true }
  have hdry : o.dryRun = false := rfl
  rcases first_phase_repairs hsound hdry missingTwice check with ⟨p, hplan, happroaches, hrepairs⟩
  have hcomprehensive : Approach.comprehensive ∈ p.scenarios.map Scenario.approach := by
    rw [happroaches]
    decide
  rcases List.mem_map.mp hcomprehensive with ⟨sc, hsc, happroach⟩
  rcases hrepairs sc hsc with ⟨first, rest, hphases, hrun⟩
  have hlate : "late" ∈ (missingTwice.execute o sc.approach [first]).1.paths :=
    hrun.mem_paths.mpr (.inr ⟨⟨"b", "late", false⟩, by decide, rfl, rfl⟩)
  have hstrange : "no such, token!" ∈ (missingTwice.execute o sc.approach [first]).1.paths :=
    hrun.mem_paths.mpr (.inr ⟨⟨"a", "no such, token!", false⟩, by decide, rfl, rfl⟩)
  have hlink : (missingTwice.execute o sc.approach [first]).1.graph.Leads "c" "late" := by
    let t : Token := { path := "c", value := .text "late" }
    have hold : t ∈ missingTwice.tokens := by simp [missingTwice, t]
    have htarget : "late" ∈ t.targets (missingTwice.execute o sc.approach [first]).1.contains :=
      Token.mem_targets.mpr ⟨"late", rfl, .inr ⟨by decide, by decide, by decide, by decide,
        by decide, contains_iff.mpr hlate⟩⟩
    rcases hrun.tokens with ⟨fresh, htokens, _⟩
    rw [leads_iff, htokens]
    exact ⟨t, List.mem_append_left _ hold, rfl, htarget, hlate⟩
  exact ⟨.standard, check, o, p, sc, first, rest, hsound, hdry, rfl, hplan, hsc, happroach, hphases,
    hstrange, by decide, hlink, hrun.resolved⟩

end DesignTokens
