import DesignTokens.Proofs.Migration.Runs

/-!
# What the record of a run says

The record of a run has an entry for every phase and every action of the plan, in the order of the
plan, and each entry tells how its part of the run ended.  A run that goes through to the end skips
nothing.  A run that stops at the first failed action completes all that comes before the action,
skips all that comes after it, and leaves the store that the plan would leave if it ended there.
-/

namespace DesignTokens

/-! ## Entries -/

/-- What the record of an action says of it. -/
structure ActionRecord.Of (a : Action) (r : ActionRecord) : Prop where
  id_eq : r.actionId = a.id
  kind_eq : r.kind = a.kind
  completed_iff : r.status ≠ .skipped →
    (r.status = .completed ↔ ∀ op ∈ r.operations, op.succeeded = true)
  idle : r.status = .skipped → r.operations = []

/-- What the record of a phase says of it. -/
structure PhaseRecord.Of (p : Phase) (r : PhaseRecord) : Prop where
  id_eq : r.phaseId = p.id
  name_eq : r.name = p.name
  actions : List.Forall₂ ActionRecord.Of p.actions r.actions
  failed_iff : r.status ≠ .skipped → (r.status = .failed ↔ ∃ a ∈ r.actions, a.status = .failed)
  idle : r.status = .skipped → ∀ a ∈ r.actions, a.status = .skipped

theorem ActionRecord.of_skipped (a : Action) : ActionRecord.Of a (.skipped a) where
  id_eq := rfl
  kind_eq := rfl
  completed_iff := by
    intro hran
    exact absurd rfl hran
  idle := by
    intro _
    rfl

theorem ActionRecord.of_all_skipped (as : List Action) :
    List.Forall₂ ActionRecord.Of as (as.map ActionRecord.skipped) := by
  induction as with
  | nil => exact .nil
  | cons a as ih => exact .cons (ActionRecord.of_skipped a) ih

theorem PhaseRecord.of_skipped (p : Phase) : PhaseRecord.Of p (.skipped p) where
  id_eq := rfl
  name_eq := rfl
  actions := ActionRecord.of_all_skipped p.actions
  failed_iff := by
    intro hran
    exact absurd rfl hran
  idle := by
    intro _ r hr
    rcases List.mem_map.mp hr with ⟨a, _, rfl⟩
    rfl

theorem PhaseRecord.of_all_skipped (ps : List Phase) :
    List.Forall₂ PhaseRecord.Of ps (ps.map PhaseRecord.skipped) := by
  induction ps with
  | nil => exact .nil
  | cons p ps ih => exact .cons (PhaseRecord.of_skipped p) ih

theorem ActionRecord.map_status_skipped (as : List Action) :
    (as.map ActionRecord.skipped).map ActionRecord.status = List.replicate as.length .skipped := by
  simp [ActionRecord.skipped, Function.comp_def]

theorem PhaseRecord.map_status_skipped (ps : List Phase) :
    (ps.map PhaseRecord.skipped).map PhaseRecord.status = List.replicate ps.length .skipped := by
  simp [PhaseRecord.skipped, Function.comp_def]

theorem PhaseRecord.flatMap_actions_skipped (ps : List Phase) :
    (ps.map PhaseRecord.skipped).flatMap PhaseRecord.actions =
      (ps.flatMap Phase.actions).map ActionRecord.skipped := by
  simp [PhaseRecord.skipped, List.flatMap_map, List.map_flatMap]

/-! ## Counters -/

namespace Execution

def countActions (e : Execution) (s : RunStatus) : Nat :=
  (e.actions.filter fun a => a.status = s).length

def succeeded (e : Execution) : List Operation := e.operations.filter Operation.succeeded

def operationsFailed (e : Execution) : Nat :=
  (e.operations.filter fun o => !o.succeeded).length

/-- How many references the successful operations rewrote. -/
def referencesUpdated (e : Execution) : Nat :=
  (e.succeeded.map fun o => o.updated.length).foldr (· + ·) 0

end Execution

namespace Tally

theorem addStatus_eq (t : Tally) (status : RunStatus) :
    t.addStatus status =
      { t with
        completed := t.completed + if status = .completed then 1 else 0
        failed := t.failed + if status = .failed then 1 else 0
        skipped := t.skipped + if status = .skipped then 1 else 0 } := by
  cases status with
  | completed => rfl
  | failed => rfl
  | skipped => rfl

/-- How many references some operations rewrote, as far as they succeeded. -/
def rewrittenBy (ops : List Operation) : Nat :=
  ((ops.filter Operation.succeeded).map fun op => op.updated.length).foldr (· + ·) 0

theorem rewrittenBy_cons (op : Operation) (ops : List Operation) :
    rewrittenBy (op :: ops) =
      (if op.succeeded then op.updated.length else 0) + rewrittenBy ops := by
  cases hop : op.succeeded with
  | true => simp [rewrittenBy, hop]
  | false => simp [rewrittenBy, hop]

theorem rewrittenBy_append (ops rest : List Operation) :
    rewrittenBy (ops ++ rest) = rewrittenBy ops + rewrittenBy rest := by
  induction ops with
  | nil => simp [rewrittenBy]
  | cons op ops ih => rw [List.cons_append, rewrittenBy_cons, rewrittenBy_cons, ih, Nat.add_assoc]

/-- Going over some operations moves the operation counters by what there is to count. -/
theorem foldl_addOperation (t : Tally) (ops : List Operation) :
    ops.foldl addOperation t =
      { t with
        succeeded := t.succeeded + ops.countP Operation.succeeded
        unsuccessful := t.unsuccessful + ops.countP fun op => !op.succeeded
        rewritten := t.rewritten + rewrittenBy ops } := by
  induction ops generalizing t with
  | nil => simp [rewrittenBy]
  | cons op ops ih =>
    rw [List.foldl_cons, ih, rewrittenBy_cons]
    cases hop : op.succeeded with
    | true =>
      simp only [addOperation, List.countP_cons, hop, Bool.not_true, Bool.false_eq_true, if_true,
        if_false, mk.injEq, true_and]
      omega
    | false =>
      simp only [addOperation, List.countP_cons, hop, Bool.not_false, Bool.false_eq_true, if_true,
        if_false, mk.injEq, true_and]
      omega

/-- Going over some actions moves all counters by what there is to count. -/
theorem foldl_addAction (t : Tally) (rs : List ActionRecord) :
    rs.foldl addAction t =
      { completed := t.completed + rs.countP fun r => r.status = .completed
        failed := t.failed + rs.countP fun r => r.status = .failed
        skipped := t.skipped + rs.countP fun r => r.status = .skipped
        succeeded :=
          t.succeeded + (rs.flatMap ActionRecord.operations).countP Operation.succeeded
        unsuccessful := t.unsuccessful +
          (rs.flatMap ActionRecord.operations).countP fun op => !op.succeeded
        rewritten := t.rewritten + rewrittenBy (rs.flatMap ActionRecord.operations) } := by
  induction rs generalizing t with
  | nil => simp [rewrittenBy]
  | cons r rs ih =>
    rw [List.foldl_cons, ih, addAction, foldl_addOperation, addStatus_eq]
    simp only [List.countP_cons, List.flatMap_cons, List.countP_append, rewrittenBy_append,
      decide_eq_true_eq, mk.injEq]
    omega

end Tally

/-- One pass counts what there is in the record. -/
theorem Execution.tally_eq (e : Execution) :
    e.tally =
      { completed := e.countActions .completed
        failed := e.countActions .failed
        skipped := e.countActions .skipped
        succeeded := e.succeeded.length
        unsuccessful := e.operationsFailed
        rewritten := e.referencesUpdated } := by
  rw [tally, Tally.foldl_addAction]
  simp only [Nat.zero_add, countActions, succeeded, operationsFailed, referencesUpdated,
    List.countP_eq_length_filter, operations, Tally.rewrittenBy]

/-- An action has ended in one of three ways. -/
theorem ActionRecord.countP_status (rs : List ActionRecord) :
    (rs.countP fun r => r.status = .completed) + (rs.countP fun r => r.status = .failed) +
      (rs.countP fun r => r.status = .skipped) = rs.length := by
  induction rs with
  | nil => rfl
  | cons r rs ih =>
    have hone : (if r.status = .completed then 1 else 0) +
        (if r.status = .failed then 1 else 0) + (if r.status = .skipped then 1 else 0) = 1 := by
      cases r.status with
      | completed => rfl
      | failed => rfl
      | skipped => rfl
    simp only [List.countP_cons, List.length_cons, decide_eq_true_eq]
    omega

/-! ## Runs in general -/

namespace Store

variable {s : OpenStore} {o : RunOptions}

theorem recordAction_of (s : OpenStore) (o : RunOptions) (a : Action) :
    ∃ s' r, s.recordAction o a = (s', r, []) ∧ ActionRecord.Of a r ∧
      (r.status = .completed ∨ r.status = .failed) := by
  rcases exists_runAction s o.dryRun a with ⟨s', ops, hrun⟩
  refine ⟨s', _, by rw [recordAction, hrun], ?_, ?_⟩
  · refine ⟨rfl, rfl, ?_, ?_⟩
    · intro _
      cases hall : ops.all Operation.succeeded with
      | true => simpa using hall
      | false => simpa using hall
    · intro hskipped
      cases hall : ops.all Operation.succeeded <;> simp [hall] at hskipped
  · cases hall : ops.all Operation.succeeded <;> simp

theorem runActions_of (o : RunOptions) (as : List Action) (s : OpenStore) :
    List.Forall₂ ActionRecord.Of as (runActions o as s).2.1 ∧ (runActions o as s).2.2 = [] := by
  induction as generalizing s with
  | nil => exact ⟨.nil, rfl⟩
  | cons a as ih =>
    rcases recordAction_of s o a with ⟨s', r, hrecord, hof, _⟩
    rcases ih s' with ⟨hrest, herrors⟩
    simp only [runActions, hrecord]
    split
    · exact ⟨.cons hof (ActionRecord.of_all_skipped as), rfl⟩
    · refine ⟨.cons hof hrest, ?_⟩
      rw [herrors, List.append_nil]

/-- A phase that is run fails exactly if one of its actions does, and is completed otherwise. -/
theorem runPhase_of (s : OpenStore) (o : RunOptions) (p : Phase) :
    PhaseRecord.Of p (s.runPhase o p).2 ∧
      (s.runPhase o p).2.status =
        if ∃ a ∈ (s.runPhase o p).2.actions, a.status = .failed then .failed else .completed := by
  rcases runActions_of o p.actions s with ⟨hactions, herrors⟩
  have hstatus : (s.runPhase o p).2.status =
      if ∃ a ∈ (s.runPhase o p).2.actions, a.status = .failed then .failed else .completed := by
    simp [runPhase, herrors]
  refine ⟨⟨rfl, rfl, hactions, ?_, ?_⟩, hstatus⟩
  · intro _
    rw [hstatus]
    split
    · next hfailed => simpa using hfailed
    · next hnone => simpa using hnone
  · intro hskipped
    rw [hstatus] at hskipped
    split at hskipped
    · cases hskipped
    · cases hskipped

theorem runPhases_of (o : RunOptions) (phases : List Phase) (s : OpenStore) :
    List.Forall₂ PhaseRecord.Of phases (runPhases o phases s).2 := by
  induction phases generalizing s with
  | nil => exact .nil
  | cons p phases ih =>
    have hphase := (runPhase_of s o p).1
    unfold runPhases
    dsimp only
    split
    · exact .cons hphase (PhaseRecord.of_all_skipped phases)
    · exact .cons hphase (ih _)

/-! ## Runs that go through and runs that stop -/

end Store

/-- The options of the same run without a stop at the first failed action. -/
def RunOptions.throughout (o : RunOptions) : RunOptions := { o with stopOnError := false }

@[simp]
theorem RunOptions.stopOnError_throughout (o : RunOptions) :
    o.throughout.stopOnError = false := rfl

/-- A place in a plan: an action, with what comes before and after it. -/
structure Cut (phases : List Phase) where
  before : List Phase
  phase : Phase
  done : List Action
  action : Action
  rest : List Action
  after : List Phase
  phases_eq : phases = before ++ phase :: after
  actions_eq : phase.actions = done ++ action :: rest

namespace Cut

variable {phases : List Phase}

/-- The plan that ends right after the action. -/
def plan (c : Cut phases) : List Phase :=
  c.before ++ [{ c.phase with actions := c.done ++ [c.action] }]

/-- The actions before the place. -/
def passed (c : Cut phases) : List Action := c.before.flatMap Phase.actions ++ c.done

/-- The actions after the place. -/
def left (c : Cut phases) : List Action := c.rest ++ c.after.flatMap Phase.actions

/-- The same place with one more phase before it. -/
def cons (p : Phase) (c : Cut phases) : Cut (p :: phases) :=
  { c with before := p :: c.before, phases_eq := congrArg (p :: ·) c.phases_eq }

theorem passed_cons (p : Phase) (c : Cut phases) :
    (c.cons p).passed = p.actions ++ c.passed := by
  simp [passed, cons]

theorem plan_cons (p : Phase) (c : Cut phases) : (c.cons p).plan = p :: c.plan := rfl

end Cut

namespace Store

variable {s : OpenStore} {o : RunOptions} {as : List Action} {phases : List Phase}

theorem recordAction_throughout (s : OpenStore) (o : RunOptions) (a : Action) :
    s.recordAction o.throughout a = s.recordAction o a := rfl

section

variable (hstop : o.stopOnError = false)
include hstop

theorem not_skipped_of_mem_runActions {r : ActionRecord} (h : r ∈ (runActions o as s).2.1) :
    r.status ≠ .skipped := by
  induction as generalizing s with
  | nil => exact absurd h List.not_mem_nil
  | cons a as ih =>
    rcases recordAction_of s o a with ⟨s', r', hrecord, _, hended⟩
    simp only [runActions, hrecord, hstop, Bool.false_and, Bool.false_eq_true, if_false] at h
    rcases List.mem_cons.mp h with rfl | hlater
    · rcases hended with hended | hended
      · simp [hended]
      · simp [hended]
    · exact ih hlater

theorem not_skipped_of_mem_runPhases {r : PhaseRecord} (h : r ∈ (runPhases o phases s).2) :
    r.status ≠ .skipped ∧ ∀ a ∈ r.actions, a.status ≠ .skipped := by
  rcases mem_runPhases hstop h with ⟨s', p, rfl⟩
  refine ⟨?_, ?_⟩
  · rw [(runPhase_of s' o p).2]
    split
    · simp
    · simp
  · intro a ha
    exact not_skipped_of_mem_runActions hstop ha

end

section

variable (hstop : o.stopOnError = true)
include hstop

/-- Either no action fails, and then nothing is stopped, or one does, and then the run up to it
is the run of these actions alone. -/
theorem runActions_stop (as : List Action) (s : OpenStore) :
    ((runActions o as s).2.1.map ActionRecord.status = List.replicate as.length .completed ∧
      runActions o as s = runActions o.throughout as s) ∨
    ∃ done a rest, as = done ++ a :: rest ∧
      (runActions o as s).2.1.map ActionRecord.status =
        List.replicate done.length .completed ++ .failed ::
          List.replicate rest.length .skipped ∧
      (runActions o as s).1 = (runActions o.throughout (done ++ [a]) s).1 := by
  induction as generalizing s with
  | nil => exact .inl ⟨rfl, rfl⟩
  | cons a as ih =>
    rcases recordAction_of s o a with ⟨s', r, hrecord, _, hended⟩
    have hthrough : ∀ bs, runActions o.throughout (a :: bs) s =
        ((runActions o.throughout bs s').1, r :: (runActions o.throughout bs s').2.1,
          (runActions o.throughout bs s').2.2) := by
      intro bs
      simp [runActions, recordAction_throughout, hrecord]
    rcases hended with hcompleted | hfailed
    · have hgoes : runActions o (a :: as) s =
          ((runActions o as s').1, r :: (runActions o as s').2.1, (runActions o as s').2.2) := by
        simp [runActions, hrecord, hcompleted]
      rcases ih s' with ⟨hstatus, hsame⟩ | ⟨done, b, rest, rfl, hstatus, hstore⟩
      · refine .inl ⟨?_, ?_⟩
        · rw [hgoes, List.map_cons, hstatus, hcompleted]
          rfl
        · rw [hgoes, hthrough, hsame]
      · refine .inr ⟨a :: done, b, rest, rfl, ?_, ?_⟩
        · rw [hgoes, List.map_cons, hstatus, hcompleted]
          rfl
        · rw [hgoes, List.cons_append, hthrough, hstore]
    · refine .inr ⟨[], a, as, rfl, ?_, ?_⟩
      · simp [runActions, hrecord, hstop, hfailed, ActionRecord.skipped, Function.comp_def]
      · rw [List.nil_append, hthrough]
        simp [runActions, hrecord, hstop, hfailed]

/-- The same for one phase. -/
theorem runPhase_stop (s : OpenStore) (p : Phase) :
    ((s.runPhase o p).2.status = .completed ∧
      (s.runPhase o p).2.actions.map ActionRecord.status =
        List.replicate p.actions.length .completed ∧
      s.runPhase o.throughout p = s.runPhase o p) ∨
    ∃ done a rest, p.actions = done ++ a :: rest ∧
      (s.runPhase o p).2.status = .failed ∧
      (s.runPhase o p).2.actions.map ActionRecord.status =
        List.replicate done.length .completed ++ .failed ::
          List.replicate rest.length .skipped ∧
      (s.runPhase o p).1 = (s.runPhase o.throughout { p with actions := done ++ [a] }).1 := by
  have hended := (runPhase_of s o p).2
  rcases runActions_stop hstop p.actions s with
    ⟨hstatus, hsame⟩ | ⟨done, a, rest, hactions, hstatus, hstore⟩
  · have hmap : (s.runPhase o p).2.actions.map ActionRecord.status =
        List.replicate p.actions.length .completed := hstatus
    refine .inl ⟨?_, hmap, ?_⟩
    · rw [hended, if_neg]
      intro hfailed
      rcases hfailed with ⟨r, hr, hr'⟩
      have hmem := List.mem_map_of_mem (f := ActionRecord.status) hr
      rw [hmap, hr'] at hmem
      cases List.eq_of_mem_replicate hmem
    · simp only [runPhase, hsame]
  · have hmap : (s.runPhase o p).2.actions.map ActionRecord.status =
        List.replicate done.length .completed ++ .failed ::
          List.replicate rest.length .skipped := hstatus
    refine .inr ⟨done, a, rest, hactions, ?_, hmap, hstore⟩
    rw [hended, if_pos]
    have hmem : RunStatus.failed ∈ (s.runPhase o p).2.actions.map ActionRecord.status := by
      rw [hmap]
      exact List.mem_append_right _ List.mem_cons_self
    rcases List.mem_map.mp hmem with ⟨r, hr, hfailed⟩
    exact ⟨r, hr, hfailed⟩

/-- The same for the phases of a plan. -/
theorem runPhases_stop (phases : List Phase) (s : OpenStore) :
    ((runPhases o phases s).2.map PhaseRecord.status =
        List.replicate phases.length .completed ∧
      ((runPhases o phases s).2.flatMap PhaseRecord.actions).map ActionRecord.status =
        List.replicate (phases.flatMap Phase.actions).length .completed ∧
      runPhases o phases s = runPhases o.throughout phases s) ∨
    ∃ c : Cut phases,
      (runPhases o phases s).2.map PhaseRecord.status =
        List.replicate c.before.length .completed ++ .failed ::
          List.replicate c.after.length .skipped ∧
      ((runPhases o phases s).2.flatMap PhaseRecord.actions).map ActionRecord.status =
        List.replicate c.passed.length .completed ++ .failed ::
          List.replicate c.left.length .skipped ∧
      (runPhases o phases s).1 = (runPhases o.throughout c.plan s).1 := by
  induction phases generalizing s with
  | nil => exact .inl ⟨rfl, rfl, rfl⟩
  | cons p phases ih =>
    rcases runPhase_stop hstop s p with
      ⟨hcompleted, hfirst, hphase⟩ | ⟨done, a, rest, hactions, hfailed, hfirst, hstore⟩
    · -- The phase goes through, and the rest of the plan runs on the store that it leaves.
      have hgoes : runPhases o (p :: phases) s =
          ((runPhases o phases (s.runPhase o p).1).1,
            (s.runPhase o p).2 :: (runPhases o phases (s.runPhase o p).1).2) := by
        simp [runPhases, hcompleted]
      have hthrough : ∀ qs, runPhases o.throughout (p :: qs) s =
          ((runPhases o.throughout qs (s.runPhase o p).1).1,
            (s.runPhase o p).2 :: (runPhases o.throughout qs (s.runPhase o p).1).2) := by
        intro qs
        simp [runPhases, hphase]
      rcases ih (s.runPhase o p).1 with ⟨hp, ha, hrun⟩ | ⟨c, hp, ha, hrun⟩
      · refine .inl ⟨?_, ?_, ?_⟩
        · rw [hgoes, List.map_cons, hcompleted, hp]
          rfl
        · rw [hgoes, List.flatMap_cons, List.map_append, hfirst, ha, List.flatMap_cons,
            List.length_append, List.replicate_append_replicate]
        · rw [hgoes, hthrough, hrun]
      · refine .inr ⟨c.cons p, ?_, ?_, ?_⟩
        · rw [hgoes, List.map_cons, hcompleted, hp]
          rfl
        · rw [hgoes, List.flatMap_cons, List.map_append, hfirst, ha, Cut.passed_cons,
            List.length_append, ← List.append_assoc, List.replicate_append_replicate]
          rfl
        · rw [hgoes, Cut.plan_cons, hthrough, hrun]
    · -- The phase stops, and nothing after it is run.
      have hstops : runPhases o (p :: phases) s =
          ((s.runPhase o p).1, (s.runPhase o p).2 :: phases.map PhaseRecord.skipped) := by
        simp [runPhases, hstop, hfailed]
      refine .inr ⟨⟨[], p, done, a, rest, phases, rfl, hactions⟩, ?_, ?_, ?_⟩
      · rw [hstops, List.map_cons, hfailed, PhaseRecord.map_status_skipped]
        rfl
      · rw [hstops, List.flatMap_cons, List.map_append, hfirst,
          PhaseRecord.flatMap_actions_skipped, ActionRecord.map_status_skipped]
        simp [Cut.passed, Cut.left]
      · rw [hstops]
        simp [hstore, Cut.plan, runPhases]

end

/-! ## Records -/

end Store

/-- What the record of a run of a plan says. -/
structure Execution.Records (e : Execution) (phases : List Phase) : Prop where
  entries : List.Forall₂ PhaseRecord.Of phases e.phases
  failed_iff : e.status = .failed ↔ ∃ r ∈ e.phases, r.status = .failed
  ended : e.status = .completed ∨ e.status = .failed
  actions_counted : e.tally.completed + e.tally.failed + e.tally.skipped =
    (phases.flatMap Phase.actions).length
  operations_counted : e.tally.succeeded = e.operations.countP Operation.succeeded ∧
    e.tally.unsuccessful = (e.operations.countP fun op => !op.succeeded) ∧
    e.tally.rewritten = Tally.rewrittenBy e.operations
  -- One pass over the record counts what there is in it.
  tally_eq : e.tally =
    { completed := e.countActions .completed
      failed := e.countActions .failed
      skipped := e.countActions .skipped
      succeeded := e.succeeded.length
      unsuccessful := e.operationsFailed
      rewritten := e.referencesUpdated }

namespace Store

/-- A run in which no action failed. -/
structure RanThrough (s : OpenStore) (o : RunOptions) (approach : Approach)
    (phases : List Phase) : Prop where
  phases_status : (s.execute o approach phases).2.phases.map PhaseRecord.status =
    List.replicate phases.length .completed
  actions_status : (s.execute o approach phases).2.actions.map ActionRecord.status =
    List.replicate (phases.flatMap Phase.actions).length .completed
  run_eq : s.execute o approach phases = s.execute o.throughout approach phases

/-- A run that stopped at a failed action. -/
structure StoppedAt (s : OpenStore) (o : RunOptions) (approach : Approach) {phases : List Phase}
    (c : Cut phases) : Prop where
  phases_status : (s.execute o approach phases).2.phases.map PhaseRecord.status =
    List.replicate c.before.length .completed ++ .failed ::
      List.replicate c.after.length .skipped
  actions_status : (s.execute o approach phases).2.actions.map ActionRecord.status =
    List.replicate c.passed.length .completed ++ .failed ::
      List.replicate c.left.length .skipped
  store_eq : (s.execute o approach phases).1 = (s.execute o.throughout approach c.plan).1

theorem execute_records (s : OpenStore) (o : RunOptions) (approach : Approach)
    (phases : List Phase) : (s.execute o approach phases).2.Records phases := by
  have hentries : List.Forall₂ PhaseRecord.Of phases (s.execute o approach phases).2.phases :=
    runPhases_of o phases s
  refine ⟨hentries, ?_, ?_, ?_, ?_, Execution.tally_eq _⟩
  · simp [Execution.status]
  · unfold Execution.status
    split
    · exact .inr rfl
    · exact .inl rfl
  · rw [Execution.tally_eq]
    simp only [Execution.countActions, ← List.countP_eq_length_filter]
    rw [ActionRecord.countP_status, Execution.actions]
    exact (List.rel_flatMap hentries fun _ _ hphase => hphase.actions).length_eq.symm
  · rw [Execution.tally_eq]
    simp only [Execution.succeeded, Execution.operationsFailed, Execution.referencesUpdated,
      Tally.rewrittenBy, List.countP_eq_length_filter, and_self]

/-- The record of a run has an entry for every phase and every action that says how it ended.
Without a stop at errors nothing is skipped; with one, either no action fails, or everything
before the failed action is completed, everything after it is skipped, and the store is the one
that the plan up to and including this action leaves. -/
theorem record_tells_run (s : OpenStore) (o : RunOptions) (approach : Approach)
    (phases : List Phase) :
    (s.execute o approach phases).2.Records phases ∧
      (o.stopOnError = false → ∀ r ∈ (s.execute o approach phases).2.phases,
        r.status ≠ .skipped ∧ ∀ a ∈ r.actions, a.status ≠ .skipped) ∧
      (o.stopOnError = true → s.RanThrough o approach phases ∨
        ∃ c : Cut phases, s.StoppedAt o approach c) := by
  refine ⟨execute_records s o approach phases, ?_, ?_⟩
  · intro hstop r hr
    exact not_skipped_of_mem_runPhases hstop hr
  · intro hstop
    rcases runPhases_stop hstop phases s with ⟨hp, ha, hrun⟩ | ⟨c, hp, ha, hrun⟩
    · refine .inl ⟨hp, ha, ?_⟩
      simp only [execute, hrun]
      rfl
    · exact .inr ⟨c, hp, ha, hrun⟩

/-- Two phases, of which the first has an action in its middle that fails on an empty store. -/
def halting : List Phase :=
  let create (path : String) : Action :=
    { id := path, kind := .create, description := "", targets := [path] }
  let phase (id : String) (actions : List Action) : Phase :=
    { id, name := id, description := "", actions, effortHours := 0, dependencies := []
      rollbackPlan := "" }
  [phase "p.1" [create "a", { id := "gone", kind := .delete, description := "", targets := ["x"] },
    create "b"], phase "p.2" [create "c"]]

/-- With a stop at errors this plan does not run through: it stops with one token made, and the
tokens of the other two actions are not. -/
theorem record_tells_run_halting :
    ((empty : OpenStore).execute { stopOnError := true } .conservative halting).1.paths = ["a"] ∧
      ((empty : OpenStore).execute {} .conservative halting).1.paths = ["a", "b", "c"] ∧
      ∃ c : Cut halting,
        (empty : OpenStore).StoppedAt { stopOnError := true } .conservative c := by
  refine ⟨by decide +kernel, by decide +kernel, ?_⟩
  rcases record_tells_run empty { stopOnError := true } .conservative halting with ⟨_, _, hstop⟩
  rcases hstop rfl with hthrough | hstopped
  · have hstatus := hthrough.phases_status
    have hfailed : ((empty : OpenStore).execute { stopOnError := true } .conservative
        halting).2.phases.map PhaseRecord.status ≠ List.replicate halting.length .completed := by
      decide +kernel
    exact absurd hstatus hfailed
  · exact hstopped

end Store

end DesignTokens
