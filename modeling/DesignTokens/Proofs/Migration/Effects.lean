import DesignTokens.Migration.Execution
import DesignTokens.Proofs.Store.Tokens

/-!
# Runs without effect and runs undone

In a dry run every step works out what it would do on the store as it is.  Whatever comes of a
step, the store that it hands on is the one that it was given, and so it is for any number of
steps, on stores of every kind.

A real run can be undone.  A snapshot holds all the tokens of a store, and tokens with distinct
paths that are put into an empty store stand there in the order in which they came, so a rollback
gives back the store that the snapshot was taken of, whatever has become of the store since.
-/

namespace DesignTokens
namespace Store

variable {locked : String → Bool} {β : Type}

/-! ## Dry runs of single targets -/

theorem relocate_dry (s : Store locked) (kind : ActionKind) (source target : String) :
    (s.relocate true kind source target).1 = s := by
  unfold relocate
  split
  · rfl
  · split
    · rfl
    · rfl

theorem renameTarget_dry (s : Store locked) (target : String × Option String) :
    (s.renameTarget true target).1 = s := by
  rcases target with ⟨path, newPath⟩
  unfold renameTarget
  dsimp only
  split
  · rfl
  · split
    · exact relocate_dry s _ _ _
    · rfl

theorem restructureTarget_dry (s : Store locked) (path : String) :
    (s.restructureTarget true path).1 = s := by
  unfold restructureTarget
  split
  · rfl
  · split
    · exact relocate_dry s _ _ _
    · rfl

theorem mergeSource_dry (keep : String) (s : Store locked) (source : String) :
    (s.mergeSource true keep source).1 = s := by
  unfold mergeSource
  split
  · rfl
  · rfl

theorem splitTarget_dry (note : String) (s : Store locked) (path : String) :
    (s.splitTarget true note path).1 = s := by
  unfold splitTarget
  split
  · rfl
  · rfl

theorem deleteTarget_dry (s : Store locked) (path : String) :
    (s.deleteTarget true path).1 = s := by
  unfold deleteTarget
  split
  · rfl
  · rfl

theorem createTarget_dry (value description : String) (s : Store locked) (path : String) :
    (s.createTarget true value description path).1 = s := by
  unfold createTarget
  split
  · rfl
  · rfl

theorem describeTarget_dry (s : Store locked) (path : String) :
    (s.describeTarget true path).1 = s := by
  unfold describeTarget
  split
  · rfl
  · dsimp only
    split
    · rfl
    · split
      · rfl
      · rfl

/-! ## Dry runs of actions and scenarios -/

/-- What no step changes, the run over all targets does not change, refused or not. -/
theorem forTargets_unchanged {step : Store locked → β → Step locked Operation}
    (hstep : ∀ s b, (step s b).1 = s) (bs : List β) (s : Store locked) :
    (forTargets step bs s).1 = s := by
  induction bs generalizing s with
  | nil => rfl
  | cons b bs ih =>
    have hfirst := hstep s b
    have hrest := ih s
    unfold forTargets
    split
    · next s' e hrun =>
      rw [hrun] at hfirst
      exact hfirst
    · next s' op hrun =>
      rw [hrun] at hfirst
      cases hfirst
      split
      · next hrest' =>
        rw [hrest'] at hrest
        exact hrest
      · next hrest' =>
        rw [hrest'] at hrest
        exact hrest

theorem merge_dry (s : Store locked) (targets : List String) : (s.merge true targets).1 = s := by
  unfold merge
  dsimp only
  split
  · rfl
  · rfl
  · split
    · rfl
    · apply forTargets_unchanged
      exact mergeSource_dry _

theorem runAction_dry (s : Store locked) (a : Action) : (s.runAction true a).1 = s := by
  unfold runAction
  cases a.kind with
  | rename => exact forTargets_unchanged renameTarget_dry _ s
  | merge => exact merge_dry s _
  | split => exact forTargets_unchanged (splitTarget_dry _) _ s
  | restructure => exact forTargets_unchanged restructureTarget_dry _ s
  | delete => exact forTargets_unchanged deleteTarget_dry _ s
  | create => exact forTargets_unchanged (createTarget_dry _ _) _ s
  | updateReferences => exact forTargets_unchanged describeTarget_dry _ s

section

variable {o : RunOptions} (hdry : o.dryRun = true)
include hdry

theorem recordAction_dry (s : Store locked) (a : Action) : (s.recordAction o a).1 = s := by
  have hrun := runAction_dry s a
  unfold recordAction
  rw [hdry]
  split
  · next hok =>
    rw [hok] at hrun
    exact hrun
  · next herror =>
    rw [herror] at hrun
    exact hrun

theorem runActions_dry (as : List Action) (s : Store locked) : (runActions o as s).1 = s := by
  induction as generalizing s with
  | nil => rfl
  | cons a as ih =>
    unfold runActions
    dsimp only
    split
    · exact recordAction_dry hdry s a
    · rw [recordAction_dry hdry s a]
      exact ih s

theorem runPhases_dry (phases : List Phase) (s : Store locked) :
    (runPhases o phases s).1 = s := by
  induction phases generalizing s with
  | nil => rfl
  | cons p phases ih =>
    have hphase : (s.runPhase o p).1 = s := runActions_dry hdry p.actions s
    unfold runPhases
    dsimp only
    split
    · exact hphase
    · rw [hphase]
      exact ih s

end

/-- A dry run has no effect, whatever it runs and whatever else was asked for: the store stays as
it is and no snapshot is taken.  A single action that is only tried out has none either. -/
theorem dryRun_changes_nothing (s : Store locked) {o : RunOptions} (hdry : o.dryRun = true)
    (approach : Approach) (phases : List Phase) :
    (s.execute o approach phases).1 = s ∧ (s.execute o approach phases).2.snapshot = none ∧
      ∀ a, (s.runAction true a).1 = s := by
  refine ⟨runPhases_dry hdry phases s, ?_, ?_⟩
  · simp [execute, hdry]
  · intro a
    exact runAction_dry s a

/-- A colour and a resolved reference to it. -/
def aliased : OpenStore :=
  ⟨[{ path := "bg.base", value := .text "#fff" },
    { path := "x"
      value := .text "\x7bbg.base\x7d"
      resolved := some (.text "#fff")
      description := some "page" }], by decide⟩

/-- An action of every kind on the same two targets. -/
def everyKind : List Phase :=
  [{ id := "p"
     name := "Every kind"
     description := ""
     actions := ActionKind.all.map fun kind =>
       { id := kind.id, kind, description := "", targets := ["x", "bg.base"] }
     effortHours := 0
     dependencies := []
     rollbackPlan := "" }]

/-- Run for real, these actions move the colour, delete the other token and make two new ones;
tried out, they leave everything alone, whatever else is asked for. -/
theorem dryRun_changes_nothing_everyKind :
    (aliased.execute {} .conservative everyKind).1.paths = ["background.base", "x", "bg.base"] ∧
      (aliased.execute ⟨true, true, true, true⟩ .conservative everyKind).1 = aliased ∧
      (aliased.execute ⟨true, true, true, true⟩ .conservative everyKind).2.snapshot = none := by
  have hdry := dryRun_changes_nothing aliased (o := ⟨true, true, true, true⟩) rfl .conservative
    everyKind
  exact ⟨by decide +kernel, hdry.1, hdry.2.1⟩

/-! ## Rolling back -/

/-- A snapshot holds all that the store is made of. -/
theorem rollback_snapshot (s later : OpenStore) (label : String) :
    later.rollback (s.snapshot label) = s := by
  calc
    later.rollback (s.snapshot label) = later.clear.insertAll s.tokens := rfl
    _ = ofList s.tokens := by rw [clear_eq_empty]; rfl
    _ = s := ofList_tokens s

/-- A real run with a snapshot can be undone: from the store that it leaves, and from any other,
the snapshot in its record gives back the store before the run, as often as one likes. -/
theorem rollback_undoes_run (s : OpenStore) {o : RunOptions} (hsnapshot : o.createSnapshot = true)
    (hreal : o.dryRun = false) (approach : Approach) (phases : List Phase) :
    ∃ snap, (s.execute o approach phases).2.snapshot = some snap ∧
      (s.execute o approach phases).1.rollback snap = s ∧
      ∀ later : OpenStore, later.rollback snap = s ∧
        (later.rollback snap).rollback snap = s := by
  refine ⟨s.snapshot s!"before {approach.id} migration", ?_, ?_, ?_⟩
  · simp [execute, hsnapshot, hreal]
  · exact rollback_snapshot s _ _
  · intro later
    exact ⟨rollback_snapshot s later _, rollback_snapshot s _ _⟩

/-- The colour moves to another path. -/
def moveAway : List Phase :=
  [{ id := "p"
     name := "Move"
     description := ""
     actions := [{ id := "p.1"
                   kind := .rename
                   description := ""
                   targets := ["bg.base"]
                   newPaths := ["c"] }]
     effortHours := 0
     dependencies := []
     rollbackPlan := "" }]

/-- The move puts the colour last, redirects the reference and drops what it was resolved to; the
rollback brings back the order and the resolved value. -/
theorem rollback_undoes_run_moveAway :
    (aliased.execute {} .conservative moveAway).1.tokens =
        [{ path := "x", value := .text "\x7bc\x7d", description := some "page" },
          { path := "c", value := .text "#fff" }] ∧
      ∃ snap, (aliased.execute {} .conservative moveAway).2.snapshot = some snap ∧
        (aliased.execute {} .conservative moveAway).1.rollback snap = aliased := by
  refine ⟨by rfl, ?_⟩
  rcases rollback_undoes_run aliased (o := {}) rfl rfl .conservative moveAway with
    ⟨snap, htaken, hback, _⟩
  exact ⟨snap, htaken, hback⟩

end Store
end DesignTokens
