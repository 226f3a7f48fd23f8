import DesignTokens.Migration.Checks
import DesignTokens.Proofs.Links.Report

/-!
# What the checks decide

A check passes or fails by a list of offending paths, which is read off the defects of the link
report.  `Check.Holds` says of each check what it is about, without the report: that no chain of
resolved references leads back to its start, that every reference has its target in the store, and
that every touched path is read strictly.  Each result tells whether this holds.

Failing the check for broken references is not just a verdict.  Its offending paths are the two ends
of every broken reference, token by token.
-/

namespace DesignTokens

/-! ## Offending paths of a report -/

namespace LinkReport

variable {r : LinkReport}

theorem cyclePaths_eq_nil_iff :
    r.cyclePaths = [] ↔ ∀ c, .circular c ∈ r.defects → c = [] := by
  rw [cyclePaths, List.flatMap_eq_nil_iff]
  constructor
  · intro h c hc
    exact h (.circular c) hc
  · intro h d hd
    cases d with
    | circular c => exact h c hd
    | _ => rfl

/-- Only the links of a report have broken ends, and each of them has both. -/
theorem brokenPaths_eq (r : LinkReport) :
    r.brokenPaths =
      (r.defects.filterMap LinkDefect.link?).flatMap fun l => [l.source, l.target] := by
  unfold brokenPaths
  induction r.defects with
  | nil => rfl
  | cons d ds ih =>
    rw [List.flatMap_cons, ih]
    cases d with
    | unresolved l =>
      have hlink : (LinkDefect.unresolved l).link? = some l := rfl
      rw [List.filterMap_cons_some hlink, List.flatMap_cons]
    | _ => rw [List.filterMap_cons_none rfl, List.nil_append]

end LinkReport

/-! ## Offending paths of a store -/

namespace Store

variable {locked : String → Bool} {s : Store locked} {touched : List String}

/-- The ends of every reference to a missing path, token by token. -/
def brokenEnds (s : Store locked) : List String :=
  s.tokens.flatMap fun t =>
    ((t.targets s.contains).filter fun p => p ∉ s.paths).flatMap fun p => [t.path, p]

theorem brokenEnds_eq_nil_iff :
    s.brokenEnds = [] ↔ ∀ t ∈ s.tokens, ∀ p ∈ t.targets s.contains, p ∈ s.paths := by
  simp [brokenEnds, List.flatMap_eq_nil_iff]

/-- No cycle is listed without its members. -/
theorem cyclePaths_linkReport_eq_nil_iff (s : Store locked) (t : LinkThresholds) :
    (s.linkReport t).cyclePaths = [] ↔ ¬ s.graph.Cyclic := by
  have hg := s.graph_isProper
  rw [LinkReport.cyclePaths_eq_nil_iff, ← hg.cycles_ne_nil_iff, not_ne_iff]
  constructor
  · intro h
    refine List.eq_nil_iff_forall_not_mem.mpr fun c hc => ?_
    obtain ⟨_, v, rest, hmembers, _⟩ := hg.underway_survey.cycles_closed c hc
    rw [h c (LinkGraph.circular_mem_defects_iff.mpr hc)] at hmembers
    cases hmembers
  · intro h c hc
    have hcycle : c ∈ s.graph.cycles := LinkGraph.circular_mem_defects_iff.mp hc
    rw [h] at hcycle
    cases hcycle

theorem brokenPaths_linkReport (s : Store locked) (t : LinkThresholds) :
    (s.linkReport t).brokenPaths = s.brokenEnds := by
  -- A link of a token is resolved if the store has its target.
  have hlinks : ∀ u : Token, ((s.linksOf u).filter fun l => !l.resolved).flatMap
      (fun l => [l.source, l.target]) =
        ((u.targets s.contains).filter fun p => p ∉ s.paths).flatMap fun p => [u.path, p] := by
    intro u
    rw [linksOf, List.filter_map, List.flatMap_map]
    refine congrArg (List.flatMap _) (List.filter_congr fun p _ => ?_)
    rw [Bool.eq_iff_iff, decide_eq_true_iff, ← contains_iff]
    simp
  have hall : s.graph.links = s.tokens.flatMap s.linksOf := rfl
  rw [LinkReport.brokenPaths_eq, linkReport, LinkGraph.filterMap_link?_report, hall,
    List.filter_flatMap, List.flatMap_assoc, brokenEnds]
  simp only [hlinks]

/-! ## Verdicts -/

/-- What a check is about, in a store and for the paths that an action touched. -/
def CheckHolds (s : Store locked) (touched : List String) : Check → Prop
  | .noCycles => ¬ ∃ p, Relation.TransGen s.graph.Leads p p
  | .noBrokenReferences => ∀ t ∈ s.tokens, ∀ p ∈ t.targets s.contains, p ∈ s.paths
  | .namingCompliance => ∀ p ∈ touched, ∃ n, Naming.strict? p = some n

/-- The result of a check tells whether what it is about holds.  For broken references it names the
two ends of each. -/
structure Decides (s : Store locked) (touched : List String) (c : Check) (r : CheckResult) :
    Prop where
  check : r.check = c
  passed_iff : r.passed = true ↔ s.CheckHolds touched c
  broken : c = .noBrokenReferences → r.offending = s.brokenEnds

theorem decides_runCheck (s : Store locked) (touched : List String) (c : Check) :
    s.Decides touched c (s.runCheck touched c) where
  check := rfl
  passed_iff := by
    rw [CheckResult.passed, List.isEmpty_iff]
    cases c with
    | noCycles => exact s.cyclePaths_linkReport_eq_nil_iff {}
    | noBrokenReferences =>
      have hpaths : (s.runCheck touched .noBrokenReferences).offending = s.brokenEnds :=
        brokenPaths_linkReport s {}
      rw [hpaths]
      exact brokenEnds_eq_nil_iff
    | namingCompliance =>
      have hread : ∀ p, (¬ (Naming.strict? p).isNone = true) ↔ ∃ n, Naming.strict? p = some n := by
        intro p
        rw [Option.isNone_iff_eq_none, ← ne_eq, Option.ne_none_iff_exists']
      exact List.filter_eq_nil_iff.trans (forall₂_congr fun p _ => hread p)
  broken h := by
    subst h
    exact brokenPaths_linkReport s {}

/-- Running a list of checks gives one result for each, in their order, and every result decides
its check: it passes exactly if no chain of resolved references is closed, if every reference of
every token has its target in the store, or if every touched path is read strictly.  The offending
paths of a check for broken references are every token with a missing target, each time followed by
this target. -/
theorem checks_decide (s : Store locked) (checks : List Check) (touched : List String) :
    List.Forall₂ (s.Decides touched) checks (s.runChecks checks touched) := by
  induction checks with
  | nil => exact .nil
  | cons c checks ih => exact .cons (s.decides_runCheck touched c) ih

end Store

end DesignTokens
