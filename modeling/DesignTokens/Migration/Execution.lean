import DesignTokens.Migration.Checks
import DesignTokens.Migration.Operation

/-!
# Running a scenario

The phases are run in order and the actions of each phase in order.  The record of a run has an
entry for every phase and every action, run or not.

A run may take a snapshot before it changes anything.  Rolling back to a snapshot makes its tokens
the whole content of the store.
-/

namespace DesignTokens

structure Snapshot where
  label : String
  tokens : List Token
  deriving DecidableEq, Repr

namespace Store

variable {locked : String → Bool}

def snapshot (s : Store locked) (label : String) : Snapshot := ⟨label, s.tokens⟩

/-- The store with the content of a snapshot. -/
def rollback (s : Store locked) (snap : Snapshot) : Store locked := s.replaceAll snap.tokens

end Store

structure RunOptions where
  -- Work everything out and change nothing.
  dryRun : Bool := false
  -- Run the checks of each action.
  validate : Bool := false
  -- Skip everything after the first action that fails.
  stopOnError : Bool := false
  -- Take a snapshot before the run.
  createSnapshot : Bool := true
  deriving DecidableEq, Repr

/-- A dry run with checks. -/
def RunOptions.preview : RunOptions :=
  { dryRun := true, validate := true, stopOnError := false, createSnapshot := false }

/-- How a phase, an action or a whole run ended.  Pending and running are not among the statuses: a
part in either of them has not ended, and the record of a finished run keeps neither. -/
inductive RunStatus where
  | completed
  | failed
  | skipped
  deriving DecidableEq, Repr

def RunStatus.id : RunStatus → String
  | completed => "completed"
  | failed => "failed"
  | skipped => "skipped"

structure ActionRecord where
  actionId : String
  kind : ActionKind
  status : RunStatus
  operations : List Operation := []
  checks : List CheckResult := []
  deriving DecidableEq, Repr

namespace ActionRecord

def skipped (a : Action) : ActionRecord :=
  { actionId := a.id, kind := a.kind, status := .skipped }

end ActionRecord

/-- A change that the store refused during an action. -/
structure RunError where
  actionId : String
  cause : StoreError
  deriving DecidableEq, Repr

/-- What a refused change is called outside a run. -/
def StoreError.abortMessage (e : StoreError) : String := "store error: " ++ e.message

def RunError.message (e : RunError) : String := e.actionId ++ ": " ++ e.cause.abortMessage

structure PhaseRecord where
  phaseId : String
  name : String
  status : RunStatus
  actions : List ActionRecord
  errors : List RunError := []
  deriving DecidableEq, Repr

namespace PhaseRecord

def skipped (p : Phase) : PhaseRecord :=
  { phaseId := p.id
    name := p.name
    status := .skipped
    actions := p.actions.map ActionRecord.skipped }

end PhaseRecord

/-- The counters of a run, as one pass over its record moves them. -/
structure Tally where
  completed : Nat := 0
  failed : Nat := 0
  skipped : Nat := 0
  succeeded : Nat := 0
  unsuccessful : Nat := 0
  -- One for every token that a successful operation rewrote, however often it named the old path.
  rewritten : Nat := 0
  deriving DecidableEq, Repr

namespace Tally

def addOperation (t : Tally) (op : Operation) : Tally :=
  if op.succeeded then
    { t with succeeded := t.succeeded + 1, rewritten := t.rewritten + op.updated.length }
  else { t with unsuccessful := t.unsuccessful + 1 }

def addStatus (t : Tally) : RunStatus → Tally
  | .completed => { t with completed := t.completed + 1 }
  | .failed => { t with failed := t.failed + 1 }
  | .skipped => { t with skipped := t.skipped + 1 }

def addAction (t : Tally) (r : ActionRecord) : Tally :=
  r.operations.foldl addOperation (t.addStatus r.status)

end Tally

structure Execution where
  approach : Approach
  dryRun : Bool
  phases : List PhaseRecord
  snapshot : Option Snapshot
  deriving DecidableEq, Repr

namespace Execution

def actions (e : Execution) : List ActionRecord := e.phases.flatMap PhaseRecord.actions

def operations (e : Execution) : List Operation := e.actions.flatMap ActionRecord.operations

/-- A run failed if one of its phases did. -/
def status (e : Execution) : RunStatus :=
  if e.phases.any fun p => p.status = .failed then .failed else .completed

/-- The counters of a run. -/
def tally (e : Execution) : Tally := e.actions.foldl Tally.addAction {}

end Execution

namespace Store

variable {locked : String → Bool}

/-- The paths that an action wrote to; a deletion writes to none. -/
def touchedBy (a : Action) (ops : List Operation) : List String :=
  if a.kind = .delete then [] else (ops.filter Operation.succeeded).map Operation.touched

def recordAction (s : Store locked) (o : RunOptions) (a : Action) :
    Store locked × ActionRecord × List RunError :=
  match s.runAction o.dryRun a with
  | (s', .ok operations) =>
    let status := if operations.all Operation.succeeded then RunStatus.completed else .failed
    let checks := if o.validate then s'.runChecks a.checks (touchedBy a operations) else []
    (s', { actionId := a.id, kind := a.kind, status, operations, checks }, [])
  | (s', .error e) =>
    (s', { actionId := a.id, kind := a.kind, status := .failed }, [⟨a.id, e⟩])

def runActions (o : RunOptions) :
    List Action → Store locked → Store locked × List ActionRecord × List RunError
  | [], s => (s, [], [])
  | a :: rest, s =>
    let (s', record, errors) := s.recordAction o a
    if o.stopOnError && record.status = .failed then
      (s', record :: rest.map ActionRecord.skipped, errors)
    else
      let (s'', records, more) := runActions o rest s'
      (s'', record :: records, errors ++ more)

def runPhase (s : Store locked) (o : RunOptions) (p : Phase) : Store locked × PhaseRecord :=
  let (s', actions, errors) := runActions o p.actions s
  let failed := !errors.isEmpty || actions.any fun a => a.status = .failed
  (s', { phaseId := p.id
         name := p.name
         status := if failed then .failed else .completed
         actions, errors })

def runPhases (o : RunOptions) : List Phase → Store locked → Store locked × List PhaseRecord
  | [], s => (s, [])
  | p :: rest, s =>
    let (s', record) := s.runPhase o p
    if o.stopOnError && record.status = .failed then
      (s', record :: rest.map PhaseRecord.skipped)
    else
      let (s'', records) := runPhases o rest s'
      (s'', record :: records)

/-- Runs a list of phases under the name of an approach. -/
def execute (s : Store locked) (o : RunOptions) (approach : Approach) (phases : List Phase) :
    Store locked × Execution :=
  let snapshot :=
    if o.createSnapshot && !o.dryRun then some (s.snapshot s!"before {approach.id} migration")
    else none
  let (s', records) := runPhases o phases s
  (s', { approach, dryRun := o.dryRun, phases := records, snapshot })

end Store

end DesignTokens
