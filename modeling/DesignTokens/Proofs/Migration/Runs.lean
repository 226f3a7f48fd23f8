import DesignTokens.Migration.Execution
import DesignTokens.Migration.Scenarios
import DesignTokens.Proofs.Migration.Moves

/-!
# Runs on open stores

An action runs target by target and a scenario action by action.  An open store never refuses a
change whose conditions have been checked, so on such a store every action comes to an end, and
without the switch that stops at the first error a scenario runs all of its actions in order.

`TargetRun` and `DraftRun` are these two runs as relations between stores, with the operations that
they record; what every step keeps is then kept by a run, by induction on it.
-/

namespace DesignTokens

theorem Execution.operations_eq (e : Execution) :
    e.operations = e.phases.flatMap fun r => r.actions.flatMap ActionRecord.operations := by
  rw [Execution.operations, Execution.actions, List.flatMap_assoc]

namespace Store

variable {β : Type} {s s' s'' : OpenStore} {op : Operation} {ops rest : List Operation}

/-- An operation on one target of an open store. -/
abbrev TargetStep (β : Type) := OpenStore → β → Step (fun _ => false) Operation

/-! ## Target by target -/

/-- A run over some targets that the store never refused. -/
inductive TargetRun (step : TargetStep β) :
    List β → OpenStore → OpenStore → List Operation → Prop where
  | nil (s : OpenStore) : TargetRun step [] s s []
  | cons {b : β} {bs : List β} {s s' s'' : OpenStore} {op : Operation} {rest : List Operation}
      (hop : step s b = (s', .ok op)) (hrest : TargetRun step bs s' s'' rest) :
      TargetRun step (b :: bs) s s'' (op :: rest)

theorem forTargets_eq_ok_iff {step : TargetStep β} {bs : List β} :
    forTargets step bs s = (s', .ok ops) ↔ TargetRun step bs s s' ops := by
  constructor
  · intro h
    induction bs generalizing s ops with
    | nil =>
      cases h
      exact .nil _
    | cons b bs ih =>
      unfold forTargets at h
      split at h
      · cases h
      · next s₁ op hop =>
        split at h
        · cases h
        · next s₂ rest hrest =>
          cases h
          exact .cons hop (ih hrest)
  · intro h
    induction h with
    | nil s => rfl
    | cons hop _ ih => simp [forTargets, hop, ih]

/-- If the store accepts every step then it accepts the run. -/
theorem exists_targetRun {step : TargetStep β} (h : ∀ s b, ∃ s' op, step s b = (s', .ok op))
    (bs : List β) (s : OpenStore) : ∃ s' ops, TargetRun step bs s s' ops := by
  induction bs generalizing s with
  | nil => exact ⟨s, [], .nil s⟩
  | cons b bs ih =>
    rcases h s b with ⟨s₁, op, hop⟩
    rcases ih s₁ with ⟨s₂, rest, hrest⟩
    exact ⟨s₂, op :: rest, .cons hop hrest⟩

/-! ## Open stores accept every step -/

theorem exists_relocate (dry : Bool) (kind : ActionKind) {source : String}
    (hsource : source ∈ s.paths) (target : String) :
    ∃ s' op, s.relocate dry kind source target = (s', .ok op) := by
  by_cases hne : source = target
  · simp [relocate, hne]
  · by_cases hfree : target ∈ s.paths
    · simp [relocate, hne, contains_iff.mpr hfree, failed]
    · cases dry with
      | true => simp [relocate, hne, contains_eq_false_iff.mpr hfree]
      | false =>
        rcases mem_paths.mp hsource with ⟨t, ht, rfl⟩
        rcases relocate_eq_ok kind ht hne hfree with ⟨s', hrun, _⟩
        exact ⟨s', _, hrun⟩

theorem exists_renameTarget (dry : Bool) (s : OpenStore) (target : String × Option String) :
    ∃ s' op, s.renameTarget dry target = (s', .ok op) := by
  rcases target with ⟨path, newPath⟩
  by_cases hpath : s.contains path = true
  · simp only [renameTarget, hpath, Bool.not_true, Bool.false_eq_true, if_false]
    split
    · exact exists_relocate dry .rename (contains_iff.mp hpath) _
    · exact ⟨s, _, rfl⟩
  · simp [renameTarget, hpath, failed]

theorem exists_restructureTarget (dry : Bool) (s : OpenStore) (path : String) :
    ∃ s' op, s.restructureTarget dry path = (s', .ok op) := by
  by_cases hpath : s.contains path = true
  · simp only [restructureTarget, hpath, Bool.not_true, Bool.false_eq_true, if_false]
    split
    · exact exists_relocate dry .restructure (contains_iff.mp hpath) _
    · exact ⟨s, _, rfl⟩
  · simp [restructureTarget, hpath, failed]

theorem exists_mergeSource (dry : Bool) (keep : String) (s : OpenStore) (source : String) :
    ∃ s' op, s.mergeSource dry keep source = (s', .ok op) := by
  unfold mergeSource
  split
  · exact ⟨s, _, rfl⟩
  · dsimp only
    split
    · exact ⟨_, _, rfl⟩
    · exact ⟨_, _, rfl⟩

theorem exists_splitTarget (dry : Bool) (note : String) (s : OpenStore) (path : String) :
    ∃ s' op, s.splitTarget dry note path = (s', .ok op) := by
  unfold splitTarget
  split
  · exact ⟨s, _, rfl⟩
  · dsimp only
    split
    · exact ⟨_, _, rfl⟩
    · exact ⟨_, _, rfl⟩

theorem exists_deleteTarget (dry : Bool) (s : OpenStore) (path : String) :
    ∃ s' op, s.deleteTarget dry path = (s', .ok op) := by
  unfold deleteTarget
  split
  · exact ⟨s, _, rfl⟩
  · dsimp only
    split
    · exact ⟨_, _, rfl⟩
    · split
      · exact ⟨s, _, rfl⟩
      · exact ⟨_, _, rfl⟩

theorem exists_createTarget (dry : Bool) (value description : String) (s : OpenStore)
    (path : String) : ∃ s' op, s.createTarget dry value description path = (s', .ok op) := by
  by_cases hfree : path ∈ s.paths
  · simp [createTarget, contains_iff.mpr hfree, failed]
  · have hcontains := contains_eq_false_iff.mpr hfree
    cases dry with
    | true => simp [createTarget, hcontains]
    | false => simp [createTarget, hcontains, insertNew, Token.ofRaw]

theorem exists_describeTarget (dry : Bool) (s : OpenStore) (path : String) :
    ∃ s' op, s.describeTarget dry path = (s', .ok op) := by
  unfold describeTarget
  split
  · exact ⟨s, _, rfl⟩
  · dsimp only
    split
    · exact ⟨s, _, rfl⟩
    · split
      · exact ⟨s, _, rfl⟩
      · split
        · exact ⟨_, _, rfl⟩
        · exact ⟨_, _, rfl⟩

/-- An open store accepts every action. -/
theorem exists_runAction (s : OpenStore) (dry : Bool) (a : Action) :
    ∃ s' ops, s.runAction dry a = (s', .ok ops) := by
  -- All actions but a merge run one step over their targets.
  have hrun : ∀ {β : Type} {step : TargetStep β}, (∀ s b, ∃ s' op, step s b = (s', .ok op)) →
      ∀ bs, ∃ s' ops, forTargets step bs s = (s', .ok ops) := by
    intro β step hstep bs
    rcases exists_targetRun hstep bs s with ⟨s', ops, h⟩
    exact ⟨s', ops, forTargets_eq_ok_iff.mpr h⟩
  unfold runAction
  cases a.kind with
  | rename => exact hrun (exists_renameTarget dry) _
  | merge =>
    unfold merge
    dsimp only
    split
    · exact ⟨s, _, rfl⟩
    · exact ⟨s, _, rfl⟩
    · split
      · exact ⟨s, _, rfl⟩
      · exact hrun (exists_mergeSource dry _) _
  | split => exact hrun (exists_splitTarget dry _) _
  | restructure => exact hrun (exists_restructureTarget dry) _
  | delete => exact hrun (exists_deleteTarget dry) _
  | create => exact hrun (exists_createTarget dry _ _) _
  | updateReferences => exact hrun (exists_describeTarget dry) _

/-! ## Action by action -/

/-- A run over some drafts that the store never refused.  An action does the same whatever its
identifier is. -/
inductive DraftRun : List Draft → OpenStore → OpenStore → List Operation → Prop where
  | nil (s : OpenStore) : DraftRun [] s s []
  | cons {d : Draft} {ds : List Draft} {s s' s'' : OpenStore} {ops rest : List Operation}
      (haction : s.runAction false (d.toAction "") = (s', .ok ops))
      (hrest : DraftRun ds s' s'' rest) : DraftRun (d :: ds) s s'' (ops ++ rest)

namespace DraftRun

variable {d : Draft} {ds es : List Draft}

theorem cons_inv (h : DraftRun (d :: ds) s s'' ops) :
    ∃ s' first rest, s.runAction false (d.toAction "") = (s', .ok first) ∧
      DraftRun ds s' s'' rest ∧ ops = first ++ rest := by
  cases h with
  | cons haction hrest => exact ⟨_, _, _, haction, hrest, rfl⟩

theorem append (h : DraftRun ds s s' ops) (h' : DraftRun es s' s'' rest) :
    DraftRun (ds ++ es) s s'' (ops ++ rest) := by
  induction h with
  | nil s => exact h'
  | cons haction _ ih =>
    rw [List.append_assoc]
    exact .cons haction (ih h')

theorem append_inv (h : DraftRun (ds ++ es) s s'' ops) :
    ∃ s' first rest, DraftRun ds s s' first ∧ DraftRun es s' s'' rest ∧ ops = first ++ rest := by
  induction ds generalizing s ops with
  | nil => exact ⟨s, [], ops, .nil s, h, rfl⟩
  | cons d ds ih =>
    rcases cons_inv h with ⟨s₁, first, rest, haction, htail, rfl⟩
    rcases ih htail with ⟨s₂, second, last, hds, hes, rfl⟩
    exact ⟨s₂, first ++ second, last, .cons haction hds, hes, (List.append_assoc _ _ _).symm⟩

/-- A run has one outcome. -/
theorem unique {s₁ s₂ : OpenStore} {ops₁ ops₂ : List Operation} (h₁ : DraftRun ds s s₁ ops₁)
    (h₂ : DraftRun ds s s₂ ops₂) : s₁ = s₂ ∧ ops₁ = ops₂ := by
  induction h₁ generalizing ops₂ with
  | nil s =>
    cases h₂
    exact ⟨rfl, rfl⟩
  | cons haction _ ih =>
    rcases cons_inv h₂ with ⟨s', first, rest, haction', hrest, rfl⟩
    rw [haction] at haction'
    cases haction'
    rcases ih hrest with ⟨rfl, rfl⟩
    exact ⟨rfl, rfl⟩

/-- Dropping the drafts that have nothing to do changes nothing, because no merge among them is
without targets. -/
theorem of_filter (hmerge : ∀ d ∈ ds, d.kind = .merge → d.targets ≠ [])
    (h : DraftRun (ds.filter Draft.isUseful) s s' ops) : DraftRun ds s s' ops := by
  induction ds generalizing s ops with
  | nil => exact h
  | cons d ds ih =>
    have htail := fun e he => hmerge e (List.mem_cons_of_mem _ he)
    by_cases hd : d.isUseful = true
    · rw [List.filter_cons_of_pos hd] at h
      rcases cons_inv h with ⟨s₁, first, rest, haction, hrest, rfl⟩
      exact .cons haction (ih htail hrest)
    · rw [List.filter_cons_of_neg hd] at h
      -- Without targets an action does nothing; a merge would report that it lacks them.
      have hidle : s.runAction false (d.toAction "") = (s, .ok []) := by
        have hnothing : d.targets = [] ∧ d.kind ≠ .updateReferences := by
          simpa [Draft.isUseful] using hd
        rcases hnothing with ⟨hnone, hkind⟩
        have hmerge' := hmerge d List.mem_cons_self
        cases hk : d.kind with
        | merge => exact absurd hnone (hmerge' hk)
        | updateReferences => exact absurd hk hkind
        | _ => simp [runAction, Draft.toAction, hk, hnone, renameTargets, forTargets]
      exact .cons hidle (ih htail h)

end DraftRun

/-! ## Whole scenarios -/

/-- The drafts of some phases that have something to do, in the order in which they are run. -/
def usefulDrafts (phases : List PhaseDraft) : List Draft :=
  phases.flatMap fun p => p.actions.filter Draft.isUseful

theorem recordAction_eq (s : OpenStore) (o : RunOptions) (a : Action) :
    ∃ s' r, s.runAction o.dryRun a = (s', .ok r.operations) ∧ s.recordAction o a = (s', r, []) ∧
      (r.status = .failed ↔ ∃ op ∈ r.operations, op.succeeded = false) := by
  rcases exists_runAction s o.dryRun a with ⟨s', ops, hrun⟩
  refine ⟨s', _, ?_, by rw [recordAction, hrun], ?_⟩
  · exact hrun
  · by_cases hall : ops.all Operation.succeeded = true
    · simp only [hall, if_true, reduceCtorEq, false_iff]
      intro hfailed
      rcases hfailed with ⟨op, hop, hfault⟩
      simp [List.all_eq_true.mp hall op hop] at hfault
    · simp only [hall, Bool.false_eq_true, if_false, true_iff]
      simpa using hall

section

variable {o : RunOptions} (hdry : o.dryRun = false) (hstop : o.stopOnError = false)
include hstop

theorem runActions_errors (as : List Action) (s : OpenStore) :
    (runActions o as s).2.2 = [] ∧
      ∀ r ∈ (runActions o as s).2.1,
        (r.status = .failed ↔ ∃ op ∈ r.operations, op.succeeded = false) := by
  induction as generalizing s with
  | nil => simp [runActions]
  | cons a as ih =>
    rcases recordAction_eq s o a with ⟨s', r, _, hrecord, hstatus⟩
    rcases ih s' with ⟨herrors, hrest⟩
    simp only [runActions, hrecord, hstop, Bool.false_and, Bool.false_eq_true, if_false,
      List.nil_append]
    refine ⟨herrors, fun r' hr' => ?_⟩
    rcases List.mem_cons.mp hr' with rfl | htail
    · exact hstatus
    · exact hrest r' htail

/-- A phase fails exactly if one of its operations does. -/
theorem runPhase_failed_iff (s : OpenStore) (p : Phase) :
    (s.runPhase o p).2.status = .failed ↔
      ∃ op ∈ (s.runPhase o p).2.actions.flatMap ActionRecord.operations,
        op.succeeded = false := by
  rcases runActions_errors hstop p.actions s with ⟨herrors, hrecords⟩
  simp only [runPhase, herrors, List.isEmpty_nil, Bool.not_true, Bool.false_or, List.mem_flatMap]
  constructor
  · intro h
    split at h
    · next hany =>
      rcases List.any_eq_true.mp hany with ⟨r, hr, hfailed⟩
      obtain ⟨op, hop, hfault⟩ := (hrecords r hr).mp (by simpa using hfailed)
      exact ⟨op, ⟨r, hr, hop⟩, hfault⟩
    · cases h
  · intro hfailed
    rcases hfailed with ⟨op, ⟨r, hr, hop⟩, hfault⟩
    have hfailed := (hrecords r hr).mpr ⟨op, hop, hfault⟩
    rw [if_pos (List.any_eq_true.mpr ⟨r, hr, by simpa using hfailed⟩)]

theorem mem_runPhases {phases : List Phase} {s : OpenStore} {r : PhaseRecord}
    (h : r ∈ (runPhases o phases s).2) :
    ∃ (s' : OpenStore) (p : Phase), r = (s'.runPhase o p).2 := by
  induction phases generalizing s with
  | nil => simp [runPhases] at h
  | cons p phases ih =>
    simp only [runPhases, hstop, Bool.false_and, Bool.false_eq_true, if_false] at h
    rcases List.mem_cons.mp h with rfl | hrest
    · exact ⟨s, p, rfl⟩
    · exact ih hrest

/-- A run without stops is completed exactly if all of its operations succeed. -/
theorem execute_completed_iff (s : OpenStore) (a : Approach) (phases : List Phase) :
    (s.execute o a phases).2.status = .completed ↔
      ∀ op ∈ (s.execute o a phases).2.operations, op.succeeded = true := by
  -- A failed phase is the same thing as a failed operation in it.
  have hfailed : (s.execute o a phases).2.phases.any (fun p => p.status = .failed) = true ↔
      ∃ op ∈ (s.execute o a phases).2.operations, op.succeeded = false := by
    simp only [List.any_eq_true, decide_eq_true_eq]
    rw [Execution.operations_eq]
    constructor
    · intro hfailed
      rcases hfailed with ⟨r, hr, hstatus⟩
      rcases mem_runPhases hstop hr with ⟨s', p, rfl⟩
      rcases (runPhase_failed_iff hstop s' p).mp hstatus with ⟨op, hop, hfault⟩
      exact ⟨op, List.mem_flatMap.mpr ⟨_, hr, hop⟩, hfault⟩
    · intro hfailed
      rcases hfailed with ⟨op, hmem, hfault⟩
      rcases List.mem_flatMap.mp hmem with ⟨r, hr, hop⟩
      rcases mem_runPhases hstop hr with ⟨s', p, rfl⟩
      exact ⟨_, hr, (runPhase_failed_iff hstop s' p).mpr ⟨op, hop, hfault⟩⟩
  unfold Execution.status
  split
  · next hany =>
    rcases hfailed.mp hany with ⟨op, hop, hfault⟩
    simp only [reduceCtorEq, false_iff]
    intro hall
    simp [hall op hop] at hfault
  · next hany =>
    simp only [true_iff]
    intro op hop
    by_contra hfault
    exact hany (hfailed.mpr ⟨op, hop, by simpa using hfault⟩)

include hdry

theorem runActions_draftRun (ids : Nat → String) (ds : List Draft) (k : Nat) (s : OpenStore) :
    DraftRun ds s (runActions o ((ds.zipIdx k).map fun (d, i) => d.toAction (ids i)) s).1
      ((runActions o ((ds.zipIdx k).map fun (d, i) => d.toAction (ids i)) s).2.1.flatMap
        ActionRecord.operations) := by
  induction ds generalizing k s with
  | nil => exact .nil s
  | cons d ds ih =>
    rcases recordAction_eq s o (d.toAction (ids k)) with ⟨s', r, hrun, hrecord, _⟩
    rw [hdry] at hrun
    simp only [List.zipIdx_cons, List.map_cons, runActions, hrecord, hstop, Bool.false_and,
      Bool.false_eq_true, if_false, List.flatMap_cons]
    exact .cons hrun (ih (k + 1) s')

theorem runPhases_draftRun (a : Approach) (phases : List PhaseDraft) (k : Nat) (s : OpenStore) :
    DraftRun (usefulDrafts phases) s
      (runPhases o ((phases.zipIdx k).map fun (p, i) => p.toPhase a i) s).1
      ((runPhases o ((phases.zipIdx k).map fun (p, i) => p.toPhase a i) s).2.flatMap fun r =>
        r.actions.flatMap ActionRecord.operations) := by
  induction phases generalizing k s with
  | nil => exact .nil s
  | cons p phases ih =>
    have hphase := runActions_draftRun hdry hstop
      (fun i => s!"{PhaseDraft.phaseId a k}.{i + 1}") (p.actions.filter Draft.isUseful) 0 s
    simp only [List.zipIdx_cons, List.map_cons, runPhases, hstop, Bool.false_and,
      Bool.false_eq_true, if_false, List.flatMap_cons, usefulDrafts]
    exact hphase.append (ih (k + 1) _)

/-- Running a scenario runs its useful drafts in order. -/
theorem execute_draftRun (s : OpenStore) (a : Approach) (phases : List PhaseDraft) :
    DraftRun (usefulDrafts phases) s (s.execute o a (phasesOf a phases)).1
      (s.execute o a (phasesOf a phases)).2.operations := by
  have hrun := runPhases_draftRun hdry hstop a phases 0 s
  simpa only [execute, phasesOf, Execution.operations_eq] using hrun

end

end Store
end DesignTokens
