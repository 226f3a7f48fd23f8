import DesignTokens.Store.Basic

/-!
# The reference graph of a store

A link leads from a token to a path that its value refers to.  It is resolved if the store has
that path; only resolved links are followed.  Links come token by token in store order, and for
one token in the order in which its value names the paths, so the links of a store are the same
list on every reading.
-/

namespace DesignTokens

structure Link where
  source : String
  target : String
  resolved : Bool
  deriving DecidableEq, Repr

structure LinkGraph where
  nodes : List String
  links : List Link
  deriving DecidableEq, Repr

namespace LinkGraph

/-- The paths that a node's resolved links lead to, in order of discovery. -/
def successors (g : LinkGraph) (v : String) : List String :=
  g.links.filterMap fun l => if l.source = v ∧ l.resolved then some l.target else none

/-- The nodes whose resolved links lead to a node, in order of discovery. -/
def predecessors (g : LinkGraph) (v : String) : List String :=
  g.links.filterMap fun l => if l.target = v ∧ l.resolved then some l.source else none

/-- Every path that a node refers to, resolved or not. -/
def references (g : LinkGraph) (v : String) : List String :=
  g.links.filterMap fun l => if l.source = v then some l.target else none

/-- The nodes outside a list, which bound how much further a search can go. -/
def outside (g : LinkGraph) (seen : List String) : List String :=
  g.nodes.filter fun v => !seen.contains v

/-- Adding a new node to the list of those seen leaves fewer outside. -/
theorem length_outside_lt {g : LinkGraph} {v : String} {seen : List String}
    (hv : v ∈ g.nodes) (hnew : v ∉ seen) :
    (g.outside (v :: seen)).length < (g.outside seen).length := by
  have hsub : (g.outside (v :: seen)) = (g.outside seen).filter fun w => w != v := by
    simp only [outside, List.filter_filter]
    refine List.filter_congr fun w _ => ?_
    by_cases h : w = v <;> simp [h]
  rw [hsub]
  refine Nat.lt_of_le_of_ne (List.length_filter_le _ _) fun heq => ?_
  have hall := List.length_filter_eq_length_iff.mp heq v
    (by simp [outside, hv, hnew])
  simp at hall

end LinkGraph

def Store.links {locked : String → Bool} (s : Store locked) : List Link :=
  s.tokens.flatMap fun t =>
    (t.targets s.contains).map fun p => ⟨t.path, p, s.contains p⟩

def Store.graph {locked : String → Bool} (s : Store locked) : LinkGraph := ⟨s.paths, s.links⟩

end DesignTokens
