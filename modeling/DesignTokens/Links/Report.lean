import DesignTokens.Links.Dependents
import DesignTokens.Links.Survey
import DesignTokens.Scalar
import DesignTokens.Severity

/-!
# The dependency report

Every node of the reference graph with its role, its links in both directions and its depth, and
the defects of the graph: links to missing paths, cycles, chains that are too deep, and nodes
without any link in a store that is large enough for them to stand out.
-/

namespace DesignTokens

/-- From when on the dependency report remarks on a node. -/
structure LinkThresholds where
  -- The greatest depth that is not remarked on.
  deepChain : Nat := 3
  -- The size up to which a store is too small for orphans.
  orphanStoreSize : Nat := 10
  deriving DecidableEq, Repr

inductive NodeRole where
  -- It refers to nothing.
  | primitive
  -- It refers to some path of the store.
  | semantic
  -- All it refers to is missing.
  | unknown
  deriving DecidableEq, Repr

def NodeRole.id : NodeRole → String
  | primitive => "primitive"
  | semantic => "semantic"
  | unknown => "unknown"

structure NodeReport where
  path : String
  role : NodeRole
  references : List String
  referrers : List String
  depth : Nat
  isolated : Bool
  deriving DecidableEq, Repr

inductive LinkDefect where
  | unresolved (link : Link)
  | circular (cycle : List String)
  | deepChain (path : String) (depth threshold : Nat)
  | orphaned (path : String)
  deriving DecidableEq, Repr

namespace LinkDefect

def id : LinkDefect → String
  | unresolved _ => "unresolved"
  | circular _ => "circular"
  | deepChain _ _ _ => "deep-chain"
  | orphaned _ => "orphaned"

def severity : LinkDefect → Severity
  | unresolved _ | circular _ => .error
  | deepChain _ _ _ => .warning
  | orphaned _ => .info

def paths : LinkDefect → List String
  | unresolved l => [l.source, l.target]
  | circular cycle => cycle
  | deepChain path _ _ | orphaned path => [path]

def message : LinkDefect → String
  | unresolved l => s!"{l.source} references missing token {l.target}"
  | circular cycle => "Circular reference: " ++ " -> ".intercalate (cycle ++ cycle.take 1)
  | deepChain path depth threshold =>
    s!"{path} has a reference chain of depth {depth} (threshold {threshold})"
  | orphaned path => s!"{path} is neither referenced nor references anything"

def isCircular : LinkDefect → Bool
  | circular _ => true
  | _ => false

end LinkDefect

structure LinkReport where
  nodes : List NodeReport
  links : List Link
  defects : List LinkDefect
  deriving DecidableEq, Repr

namespace LinkGraph

def role (g : LinkGraph) (v : String) : NodeRole :=
  if (g.references v).isEmpty then .primitive
  else if (g.successors v).isEmpty then .unknown
  else .semantic

def nodeReport (g : LinkGraph) (depths : Survey) (v : String) : NodeReport where
  path := v
  role := g.role v
  references := g.references v
  referrers := Text.sorted (g.predecessors v)
  depth := (depths.depth? v).getD 0
  isolated := (g.references v).isEmpty && (g.predecessors v).isEmpty

/-- The remarks on one node of a store of a given size. -/
def nodeDefects (t : LinkThresholds) (size : Nat) (n : NodeReport) : List LinkDefect :=
  (if t.deepChain < n.depth then [.deepChain n.path n.depth t.deepChain] else []) ++
    (if n.isolated && t.orphanStoreSize < size then [.orphaned n.path] else [])

def report (g : LinkGraph) (t : LinkThresholds) : LinkReport :=
  let s := g.survey
  let nodes := g.nodes.map (g.nodeReport s)
  { nodes
    links := g.links
    defects :=
      (g.links.filter fun l => !l.resolved).map .unresolved ++ s.cycles.map .circular ++
        nodes.flatMap (nodeDefects t g.nodes.length) }

end LinkGraph

def Store.linkReport {locked : String → Bool} (s : Store locked) (t : LinkThresholds) :
    LinkReport :=
  s.graph.report t

namespace LinkReport

def node? (r : LinkReport) (path : String) : Option NodeReport :=
  r.nodes.find? fun n => n.path == path

/-- The paths that refer to a path. -/
def dependents (r : LinkReport) (path : String) : List String :=
  ((r.node? path).map NodeReport.referrers).getD []

def dependencies (r : LinkReport) (path : String) : List String :=
  ((r.node? path).map NodeReport.references).getD []

def hasCycles (r : LinkReport) : Bool := r.defects.any LinkDefect.isCircular

def count (r : LinkReport) (s : Severity) : Nat :=
  (r.defects.filter fun d => d.severity = s).length

def errorCount (r : LinkReport) : Nat := r.count .error

def warningCount (r : LinkReport) : Nat := r.count .warning

def countRole (r : LinkReport) (role : NodeRole) : Nat :=
  (r.nodes.filter fun n => n.role = role).length

def maxDepth (r : LinkReport) : Nat := (r.nodes.map NodeReport.depth).foldl max 0

def totalDepth (r : LinkReport) : Nat := (r.nodes.map NodeReport.depth).foldr (· + ·) 0

def averageDepth {α : Type} [Scalar α] (r : LinkReport) : α :=
  if r.nodes.isEmpty then 0
  else Scalar.ofNat r.totalDepth / Scalar.ofNat r.nodes.length

def isolatedCount (r : LinkReport) : Nat := (r.nodes.filter NodeReport.isolated).length

def unresolvedCount (r : LinkReport) : Nat := (r.links.filter fun l => !l.resolved).length

end LinkReport

/-- Why a question about the reference graph has no answer. -/
inductive LinkError where
  | cycleThrough (path : String)
  | noSuchNode (path : String)
  deriving DecidableEq, Repr

def LinkError.message : LinkError → String
  | cycleThrough path => s!"cycle detected through {path}"
  | noSuchNode path => s!"node not found: {path}"

end DesignTokens
