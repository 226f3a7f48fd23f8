import DesignTokens.Proofs.Migration.Records
import DesignTokens.Proofs.Store.Script

/-!
# Actions and runs as scripts

Every step of an action can be written as a script: it looks at the store, redirects references in
place, takes tokens out and puts tokens in.  Run on a store these scripts are the actions, and a
whole run is the script of its actions one after the other.  The checks of an action only look at
the store and nothing depends on what they find, so the script of a run leaves them out.
-/

namespace DesignTokens

@[simp]
theorem Store.referrers_view {locked : String → Bool} (s : Store locked) (target : String) :
    s.view.referrers target = s.referrers target := rfl

namespace Script

variable {β : Type}

/-! ## Steps -/

/-- The script of a step on one target, which the store may refuse. -/
abbrev StepScript : Type := Script (Except StoreError Operation)

/-- The script of an action. -/
abbrev ActionScript : Type := Script (Except StoreError (List Operation))

def failed (kind : ActionKind) (path : String) (fault : Fault) : StepScript :=
  pure (.ok { kind, path, fault := some fault })

def redirectAll (old new : String) : List String → Script Unit
  | [] => pure ()
  | path :: rest => do
    change path (Token.redirect old new) fun t => t.redirect_path old new
    redirectAll old new rest

def inline (keep source : String) : Script Unit := do
  let v ← view
  match v.get? source with
  | some t => change keep (Token.inline source t.value) (Token.inline_path source t.value)
  | none => pure ()

def relocate (dry : Bool) (kind : ActionKind) (source target : String) : StepScript := do
  let v ← view
  if source = target then pure (.ok { kind, path := source, remark := some .alreadyCanonical })
  else if v.contains target then failed kind source (.pathTaken target)
  else
    let referrers := v.referrers source
    let op : Operation := { kind, path := source, newPath := some target, updated := referrers }
    if dry then pure (.ok op)
    else
      redirectAll source target referrers
      let moved ← move source target
      pure (moved.map fun _ => op)

def renameTarget (dry : Bool) (target : String × Option String) : StepScript := do
  let (path, newPath) := target
  let v ← view
  if !v.contains path then failed .rename path (.notFound path)
  else
    match newPath.orElse fun _ => Naming.suggestedPath? path with
    | some newPath => relocate dry .rename path newPath
    | none => failed .rename path (.noCanonicalPath path)

def restructureTarget (dry : Bool) (path : String) : StepScript := do
  let v ← view
  if !v.contains path then failed .restructure path (.notFound path)
  else
    match Naming.strict? path with
    | some n => relocate dry .restructure path n.path
    | none => failed .restructure path (.outsideScheme path)

def mergeSource (dry : Bool) (keep source : String) : StepScript := do
  let v ← view
  if !v.contains source then failed .merge source (.notFound source)
  else
    let inlines := (v.get? keep).any fun t => t.references source
    let referrers := (v.referrers source).filter fun p => p != keep
    let op : Operation :=
      { kind := .merge
        path := source
        newPath := some keep
        remark := if inlines then some .inlined else none
        updated := referrers }
    if dry then pure (.ok op)
    else
      if inlines then inline keep source
      redirectAll source keep referrers
      let _ ← take source
      pure (.ok op)

def splitTarget (dry : Bool) (note : String) (path : String) : StepScript := do
  let v ← view
  if !v.contains path then failed .split path (.notFound path)
  else
    let op : Operation := { kind := .split, path, remark := some .manualSplit }
    if dry then pure (.ok op)
    else
      change path (fun t => { t with description := some note }) fun _ => rfl
      pure (.ok op)

def deleteTarget (dry : Bool) (path : String) : StepScript := do
  let v ← view
  if !v.contains path then failed .delete path (.notFound path)
  else
    let referrers := v.referrers path
    if dry then
      let remark := if referrers.isEmpty then none else some (.referencesRemain referrers)
      pure (.ok { kind := .delete, path, remark })
    else if !referrers.isEmpty then failed .delete path (.stillReferenced path referrers)
    else
      let _ ← take path
      pure (.ok { kind := .delete, path })

def createTarget (dry : Bool) (value description : String) (path : String) :
    StepScript := do
  let v ← view
  if v.contains path then failed .create path (.pathTaken path)
  else if dry then pure (.ok { kind := .create, path })
  else
    let created ← insertNew { Token.ofRaw path value with description := some description }
    pure (created.map fun _ => { kind := .create, path })

def describeTarget (dry : Bool) (path : String) : StepScript := do
  let v ← view
  match v.get? path with
  | none => failed .updateReferences path (.notFound path)
  | some t =>
    let op (r : Remark) : Operation := { kind := .updateReferences, path, remark := some r }
    if t.description.any fun d => d ≠ "" then pure (.ok (op .describedBefore))
    else
      match Naming.strict? path with
      | none => pure (.ok (op .noDescription))
      | some n =>
        let text := n.describe
        if dry then pure (.ok (op (.described text)))
        else
          change path (fun t => { t with description := some text }) fun _ => rfl
          pure (.ok (op (.described text)))

/-! ## Actions -/

/-- The same step for each target in turn, until the store refuses one. -/
def forTargets (step : β → StepScript) : List β → ActionScript
  | [] => pure (.ok [])
  | b :: bs => do
    match ← step b with
    | .error e => pure (.error e)
    | .ok op =>
      let rest ← forTargets step bs
      pure (rest.map (op :: ·))

def merge (dry : Bool) (targets : List String) : ActionScript := do
  let refused (path : String) (f : Fault) : ActionScript :=
    pure (.ok [{ kind := .merge, path, fault := some f }])
  match targets with
  | [] => refused "" (.tooFewToMerge 0)
  | [keep] => refused keep (.tooFewToMerge 1)
  | keep :: sources =>
    let v ← view
    if !v.contains keep then refused keep (.survivorMissing keep)
    else forTargets (mergeSource dry keep) sources

def runAction (dry : Bool) (a : Action) : ActionScript :=
  match a.kind with
  | .rename => forTargets (renameTarget dry) (Store.renameTargets a)
  | .merge => merge dry a.targets
  | .split => forTargets (splitTarget dry ("Manual split required: " ++ a.description)) a.targets
  | .restructure => forTargets (restructureTarget dry) a.targets
  | .delete => forTargets (deleteTarget dry) a.targets
  | .create => forTargets (createTarget dry (a.value.getD "") a.description) a.targets
  | .updateReferences => do
    let v ← view
    let targets :=
      if a.targets.isEmpty then v.paths.filter fun p => (Naming.strict? p).isSome
      else a.targets
    forTargets (describeTarget dry) targets

section

variable (s : OpenStore)

@[simp]
theorem run_failed (kind : ActionKind) (path : String) (fault : Fault) :
    (failed kind path fault).run s = s.failed kind path fault := rfl

@[simp]
theorem run_redirectAll (old new : String) (referrers : List String) :
    (redirectAll old new referrers).run s = (s.redirectAll referrers old new, ()) := by
  induction referrers generalizing s with
  | nil => rfl
  | cons path rest ih => exact ih (s.edit path (Token.redirect old new))

@[simp]
theorem run_inline (keep source : String) :
    (inline keep source).run s = (s.inline keep source, ()) := by
  simp only [inline, run_bind, run_view, Store.get?_view, Store.inline]
  cases s.get? source <;> rfl

theorem run_relocate (dry : Bool) (kind : ActionKind) (source target : String) :
    (relocate dry kind source target).run s = s.relocate dry kind source target := by
  by_cases hsame : source = target
  · simp [relocate, Store.relocate, hsame]
  · cases htarget : s.contains target with
    | true => simp [relocate, Store.relocate, hsame, htarget]
    | false =>
      cases dry with
      | true => simp [relocate, Store.relocate, hsame, htarget]
      | false =>
        simp only [relocate, Store.relocate, hsame, htarget, run_bind, run_view,
          Store.contains_view, Store.referrers_view, Bool.false_eq_true, if_false,
          run_redirectAll, run_move, run_pure]
        cases (s.redirectAll (s.referrers source) source target).move source target with
        | error e => rfl
        | ok moved => rfl

theorem run_renameTarget (dry : Bool) (target : String × Option String) :
    (renameTarget dry target).run s = s.renameTarget dry target := by
  rcases target with ⟨path, newPath⟩
  cases hpath : s.contains path with
  | false => simp [renameTarget, Store.renameTarget, hpath]
  | true =>
    simp only [renameTarget, Store.renameTarget, run_bind, run_view, Store.contains_view, hpath,
      Bool.not_true, Bool.false_eq_true, if_false]
    cases newPath.orElse fun _ => Naming.suggestedPath? path with
    | none => rfl
    | some newPath => exact run_relocate s dry .rename path newPath

theorem run_restructureTarget (dry : Bool) (path : String) :
    (restructureTarget dry path).run s = s.restructureTarget dry path := by
  cases hpath : s.contains path with
  | false => simp [restructureTarget, Store.restructureTarget, hpath]
  | true =>
    simp only [restructureTarget, Store.restructureTarget, run_bind, run_view,
      Store.contains_view, hpath, Bool.not_true, Bool.false_eq_true, if_false]
    cases Naming.strict? path with
    | none => rfl
    | some n => exact run_relocate s dry .restructure path n.path

theorem run_mergeSource (dry : Bool) (keep source : String) :
    (mergeSource dry keep source).run s = s.mergeSource dry keep source := by
  cases hsource : s.contains source with
  | false => simp [mergeSource, Store.mergeSource, hsource]
  | true =>
    cases dry with
    | true =>
      simp only [mergeSource, Store.mergeSource, run_bind, run_view, Store.contains_view, hsource,
        Bool.not_true, Bool.false_eq_true, if_false, if_true]
      rfl
    | false =>
      cases hinlines : (s.get? keep).any fun t => t.references source with
      | true => simp [mergeSource, Store.mergeSource, hsource, hinlines]
      | false => simp [mergeSource, Store.mergeSource, hsource, hinlines]

theorem run_splitTarget (dry : Bool) (note path : String) :
    (splitTarget dry note path).run s = s.splitTarget dry note path := by
  cases hpath : s.contains path with
  | false => simp [splitTarget, Store.splitTarget, hpath]
  | true => cases dry <;> simp [splitTarget, Store.splitTarget, hpath]

theorem run_deleteTarget (dry : Bool) (path : String) :
    (deleteTarget dry path).run s = s.deleteTarget dry path := by
  cases hpath : s.contains path with
  | false => simp [deleteTarget, Store.deleteTarget, hpath]
  | true =>
    by_cases hfree : s.referrers path = []
    · cases dry <;> simp [deleteTarget, Store.deleteTarget, hpath, hfree]
    · cases dry <;> simp [deleteTarget, Store.deleteTarget, hpath, hfree]

theorem run_createTarget (dry : Bool) (value description path : String) :
    (createTarget dry value description path).run s =
      s.createTarget dry value description path := by
  cases hpath : s.contains path with
  | true => simp [createTarget, Store.createTarget, hpath]
  | false =>
    cases dry with
    | true => simp [createTarget, Store.createTarget, hpath]
    | false =>
      simp only [createTarget, Store.createTarget, run_bind, run_view, Store.contains_view, hpath,
        Bool.false_eq_true, if_false, run_insertNew, run_pure]
      cases s.insertNew { Token.ofRaw path value with description := some description } with
      | error e => rfl
      | ok created => rfl

theorem run_describeTarget (dry : Bool) (path : String) :
    (describeTarget dry path).run s = s.describeTarget dry path := by
  simp only [describeTarget, Store.describeTarget, run_bind, run_view, Store.get?_view]
  cases s.get? path with
  | none => rfl
  | some t =>
    dsimp only
    split
    · rfl
    · cases Naming.strict? path with
      | none => rfl
      | some n => cases dry <;> rfl

/-- If the step on each target runs as a step of the store does, so does the whole row. -/
theorem run_forTargets {step : β → StepScript} {stepOn : Store.TargetStep β}
    (hstep : ∀ s b, (step b).run s = stepOn s b) (bs : List β) :
    (forTargets step bs).run s = Store.forTargets stepOn bs s := by
  induction bs generalizing s with
  | nil => rfl
  | cons b bs ih =>
    simp only [forTargets, Store.forTargets, run_bind, hstep]
    rcases stepOn s b with ⟨s', e | op⟩
    · rfl
    · simp only [run_bind, ih, run_pure]
      rcases Store.forTargets stepOn bs s' with ⟨s'', e | ops⟩
      · rfl
      · rfl

theorem run_merge (dry : Bool) (targets : List String) :
    (merge dry targets).run s = s.merge dry targets := by
  match targets with
  | [] => rfl
  | [keep] => rfl
  | keep :: source :: sources =>
    cases hkeep : s.contains keep with
    | false => simp [merge, Store.merge, hkeep]
    | true =>
      have hsources := run_forTargets s
        (fun s source => run_mergeSource s dry keep source) (source :: sources)
      simpa [merge, Store.merge, hkeep] using hsources

/-- Run on a store, the script of an action is the action. -/
theorem run_runAction (dry : Bool) (a : Action) :
    (runAction dry a).run s = s.runAction dry a := by
  unfold runAction Store.runAction
  cases a.kind with
  | rename => exact run_forTargets s (fun s => run_renameTarget s dry) _
  | merge => exact run_merge s dry a.targets
  | split => exact run_forTargets s (fun s => run_splitTarget s dry _) _
  | restructure => exact run_forTargets s (fun s => run_restructureTarget s dry) _
  | delete => exact run_forTargets s (fun s => run_deleteTarget s dry) _
  | create => exact run_forTargets s (fun s => run_createTarget s dry _ _) _
  | updateReferences =>
    simp only [run_bind, run_view]
    exact run_forTargets s (fun s => run_describeTarget s dry) _

end

/-! ## Runs -/

/-- Whether an action did all that it was to do. -/
def completed : Except StoreError (List Operation) → Bool
  | .ok ops => ops.all Operation.succeeded
  | .error _ => false

/-- The actions of a phase in turn, and whether one of them failed. -/
def runActions (o : RunOptions) : List Action → Script Bool
  | [] => pure false
  | a :: rest => do
    let failed := !completed (← runAction o.dryRun a)
    if o.stopOnError && failed then pure true
    else
      let later ← runActions o rest
      pure (failed || later)

def runPhases (o : RunOptions) : List Phase → Script Unit
  | [] => pure ()
  | p :: rest => do
    let failed ← runActions o p.actions
    if o.stopOnError && failed then pure () else runPhases o rest

/-- A whole run, and the snapshot that it took. -/
def execute (o : RunOptions) (approach : Approach) (phases : List Phase) :
    Script (Option Snapshot) := do
  let v ← view
  runPhases o phases
  pure (if o.createSnapshot && !o.dryRun then some ⟨s!"before {approach.id} migration", v.tokens⟩
    else none)

section

variable (s : OpenStore) (o : RunOptions)

theorem recordAction_eq (a : Action) :
    (s.recordAction o a).1 = ((runAction o.dryRun a).run s).1 ∧
      decide ((s.recordAction o a).2.1.status = .failed) =
        !completed ((runAction o.dryRun a).run s).2 := by
  rw [run_runAction, Store.recordAction]
  rcases s.runAction o.dryRun a with ⟨s', e | ops⟩
  · exact ⟨rfl, rfl⟩
  · refine ⟨rfl, ?_⟩
    cases hall : ops.all Operation.succeeded <;> simp [completed, hall]

theorem run_runActions (as : List Action) :
    (runActions o as).run s = ((Store.runActions o as s).1,
      (Store.runActions o as s).2.1.any fun r => r.status = .failed) := by
  induction as generalizing s with
  | nil => rfl
  | cons a as ih =>
    rcases recordAction_eq s o a with ⟨hstore, hfailed⟩
    simp only [runActions, Store.runActions, run_bind, ← hstore, ← hfailed]
    cases hstop : o.stopOnError && decide ((s.recordAction o a).2.1.status = .failed) with
    | true =>
      have hhere : decide ((s.recordAction o a).2.1.status = .failed) = true :=
        (Bool.and_eq_true_iff.mp hstop).2
      simp [hhere]
    | false => simp [ih]

theorem runPhase_failed (p : Phase) :
    decide ((s.runPhase o p).2.status = .failed) =
      (s.runPhase o p).2.actions.any fun r => r.status = .failed := by
  rw [(Store.runPhase_of s o p).2]
  split
  · next hfailed => simpa using hfailed
  · next hnone => simpa using hnone

theorem run_runPhases (phases : List Phase) :
    (runPhases o phases).run s = ((Store.runPhases o phases s).1, ()) := by
  induction phases generalizing s with
  | nil => rfl
  | cons p phases ih =>
    have hfailed : decide ((s.runPhase o p).2.status = .failed) =
        (Store.runActions o p.actions s).2.1.any fun r => r.status = .failed :=
      runPhase_failed s o p
    have hstore : (s.runPhase o p).1 = (Store.runActions o p.actions s).1 := rfl
    simp only [runPhases, Store.runPhases, run_bind, run_runActions, ← hfailed, ← hstore]
    cases hstop : o.stopOnError && decide ((s.runPhase o p).2.status = .failed) with
    | true => rfl
    | false => exact ih (s.runPhase o p).1

/-- Run on a store, the script of a run is the run: it leaves the same store and takes the same
snapshot. -/
theorem run_execute (approach : Approach) (phases : List Phase) :
    (execute o approach phases).run s =
      ((s.execute o approach phases).1, (s.execute o approach phases).2.snapshot) := by
  simp only [execute, run_bind, run_view, run_runPhases, run_pure]
  rfl

end

end Script

end DesignTokens
