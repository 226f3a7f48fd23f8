import DesignTokens.Links.Graph

/-!
# One depth-first survey

A single depth-first search answers three questions about a reference graph: how long the longest
chain of references below each node is, which cycles there are, and in which order the nodes can
be listed so that each comes after the nodes it refers to.

The search starts from the nodes in order and follows links in order of discovery.  The trail is
the chain of nodes from the start to where the search is, the latest first.  A link back into the
trail closes a cycle and counts as a chain of one link.
-/

namespace DesignTokens

/-- What a search has found so far. -/
structure Survey where
  -- The nodes in the order in which the search reached them.
  opened : List String := []
  -- The nodes in the order in which the search left them, with their depths.
  closed : List (String × Nat) := []
  -- The cycles, no two with the same members, each from the node where it was entered.
  cycles : List (List String) := []
  deriving DecidableEq, Repr

namespace Survey

/-- The depth of a node that the search has left. -/
def depth? (s : Survey) (v : String) : Option Nat := s.closed.lookup v

def sameMembers (a b : List String) : Bool := a.all b.contains && b.all a.contains

/-- The part of the trail from a node on, in walking order. -/
def cycleFrom (trail : List String) (v : String) : List String :=
  v :: (trail.takeWhile fun w => w != v).reverse

def addCycle (s : Survey) (cycle : List String) : Survey :=
  if s.cycles.any (sameMembers cycle) then s else { s with cycles := s.cycles ++ [cycle] }

def reach (s : Survey) (v : String) : Survey := { s with opened := s.opened ++ [v] }

def leave (s : Survey) (v : String) (depth : Nat) : Survey :=
  { s with closed := s.closed ++ [(v, depth)] }

end Survey

namespace LinkGraph

/-- The search below the node at the head of the trail: over its remaining successors, with the
depth found so far.  The result is the depth of that node. -/
def explore (g : LinkGraph) (trail : List String) : List String → Nat → Survey → Nat × Survey
  | [], depth, s => (depth, s)
  | v :: rest, depth, s =>
    match s.depth? v with
    | some d => explore g trail rest (max depth (d + 1)) s
    | none =>
      if htrail : v ∈ trail then
        explore g trail rest (max depth 1) (s.addCycle (Survey.cycleFrom trail v))
      else if hnode : v ∈ g.nodes then
        let below := explore g (v :: trail) (g.successors v) 0 (s.reach v)
        explore g trail rest (max depth (below.1 + 1)) (below.2.leave v below.1)
      else explore g trail rest depth s
termination_by vs => ((g.outside trail).length, vs.length)
decreasing_by
  · exact Prod.Lex.right _ (by simp)
  · exact Prod.Lex.right _ (by simp)
  · exact Prod.Lex.left _ _ (length_outside_lt hnode htrail)
  · exact Prod.Lex.right _ (by simp)
  · exact Prod.Lex.right _ (by simp)

def survey (g : LinkGraph) : Survey := (g.explore [] g.nodes 0 {}).2

def cycles (g : LinkGraph) : List (List String) := g.survey.cycles

/-! ## Listing referenced nodes first -/

/-- The first predecessor of a listed node that is listed after it. -/
def lateLink? (g : LinkGraph) : List String → List String → Option String
  | [], _ => none
  | v :: rest, before =>
    match (g.predecessors v).find? fun p => !(v :: before).contains p with
    | some p => some p
    | none => lateLink? g rest (v :: before)

/-- The nodes in the order in which the search left them, if every node comes after all it refers
to; otherwise a node on a cycle.  A node that refers to itself is noticed first, and then the
order is checked from its end. -/
def order (g : LinkGraph) : Except String (List String) :=
  let s := g.survey
  match s.opened.find? fun v => (g.successors v).contains v with
  | some v => .error v
  | none =>
    let finished := s.closed.map Prod.fst
    match g.lateLink? finished.reverse [] with
    | some v => .error v
    | none => .ok finished

end LinkGraph

end DesignTokens
