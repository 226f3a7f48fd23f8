import DesignTokens.Links.Graph

/-!
# Transitive dependents

The nodes from which a node can be reached over resolved links, found by walking the links
backwards until nothing new turns up.
-/

namespace DesignTokens.LinkGraph

/-- The nodes seen so far together with all from which a waiting node can be reached. -/
def walkBack (g : LinkGraph) : List String → List String → List String
  | [], seen => seen
  | v :: waiting, seen =>
    if _ : v ∈ seen then walkBack g waiting seen
    else if _ : v ∈ g.nodes then walkBack g (g.predecessors v ++ waiting) (v :: seen)
    else walkBack g waiting seen
termination_by waiting seen => ((g.outside seen).length, waiting.length)
decreasing_by
  · exact Prod.Lex.right _ (by simp)
  · exact Prod.Lex.left _ _ (length_outside_lt (by assumption) (by assumption))
  · exact Prod.Lex.right _ (by simp)

/-- The nodes from which `v` can be reached, other than itself, in increasing order. -/
def transitiveDependents? (g : LinkGraph) (v : String) : Option (List String) :=
  if g.nodes.contains v then some (Text.sorted ((g.walkBack [v] []).filter fun w => w != v)) else none

end DesignTokens.LinkGraph
