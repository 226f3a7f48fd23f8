import DesignTokens.Links.Report
import DesignTokens.Migration.Action
import DesignTokens.Naming.Strict

/-!
# Checks after an action

A check passes when it finds no offending path.  Naming is checked on the paths that the action
touched, everything else on the whole store.
-/

namespace DesignTokens

structure CheckResult where
  check : Check
  offending : List String
  deriving DecidableEq, Repr

namespace CheckResult

def passed (r : CheckResult) : Bool := r.offending.isEmpty

/-- How bad it is when a check fails; a check that passed is worth a note only. -/
def severity (r : CheckResult) : Severity :=
  if r.passed then .info
  else
    match r.check with
    | .noCycles | .noBrokenReferences => .error
    | .namingCompliance => .warning

def message (r : CheckResult) : String :=
  if r.passed then s!"{r.check.name}: passed"
  else s!"{r.check.name}: {r.offending.length} offending path(s)"

end CheckResult

namespace LinkReport

def cyclePaths (r : LinkReport) : List String :=
  r.defects.flatMap fun
    | .circular cycle => cycle
    | _ => []

/-- The two ends of every link to a missing path. -/
def brokenPaths (r : LinkReport) : List String :=
  r.defects.flatMap fun
    | .unresolved l => [l.source, l.target]
    | _ => []

end LinkReport

namespace Store

variable {locked : String → Bool}

def runCheck (s : Store locked) (touched : List String) (c : Check) : CheckResult where
  check := c
  offending :=
    match c with
    | .noCycles => (s.linkReport {}).cyclePaths
    | .noBrokenReferences => (s.linkReport {}).brokenPaths
    | .namingCompliance => touched.filter fun p => (Naming.strict? p).isNone

def runChecks (s : Store locked) (checks : List Check) (touched : List String) :
    List CheckResult :=
  checks.map (s.runCheck touched)

end Store

end DesignTokens
