import DesignTokens.Links.Dependents
import DesignTokens.Proofs.Links.Order

/-!
# What the walk backwards finds

The walk backwards from a node keeps three things: all that it has seen or waits for leads to the
node, the node is among them, and whatever leads to something seen is seen or waits.  When nothing
waits any more, the nodes seen are closed under links backwards, so they are exactly those from
which the node can be reached.  Cycles make no difference, because a node is seen once.
-/

namespace DesignTokens

open Relation

namespace LinkGraph

variable {g : LinkGraph} {p q v : String} {waiting seen : List String}

/-- What the walk backwards from `p` keeps. -/
structure WalksBack (g : LinkGraph) (p : String) (waiting seen : List String) : Prop where
  reaches : ∀ v, v ∈ seen ∨ v ∈ waiting → ReflTransGen g.Leads v p
  start : p ∈ seen ∨ p ∈ waiting
  closed : ∀ v ∈ seen, ∀ q, g.Leads q v → q ∈ seen ∨ q ∈ waiting

namespace WalksBack

/-- A waiting node that has been seen is dropped. -/
theorem skip (h : g.WalksBack p (v :: waiting) seen) (hv : v ∈ seen) :
    g.WalksBack p waiting seen := by
  have hdrop : ∀ w, w ∈ seen ∨ w ∈ v :: waiting → w ∈ seen ∨ w ∈ waiting := by
    rintro w (hw | hw)
    · exact .inl hw
    · rcases List.mem_cons.mp hw with rfl | hw
      · exact .inl hv
      · exact .inr hw
  exact {
    reaches := fun w hw => h.reaches w (hw.imp_right (List.mem_cons_of_mem v))
    start := hdrop p h.start
    closed := fun w hw q hq => hdrop q (h.closed w hw q hq) }

/-- A new node is seen, and all that leads to it waits. -/
theorem visit (h : g.WalksBack p (v :: waiting) seen) :
    g.WalksBack p (g.predecessors v ++ waiting) (v :: seen) := by
  have hkeep : ∀ w, w ∈ seen ∨ w ∈ v :: waiting →
      w ∈ v :: seen ∨ w ∈ g.predecessors v ++ waiting := by
    rintro w (hw | hw)
    · exact .inl (List.mem_cons_of_mem v hw)
    · rcases List.mem_cons.mp hw with rfl | hw
      · exact .inl List.mem_cons_self
      · exact .inr (List.mem_append_right _ hw)
  have hv : ReflTransGen g.Leads v p := h.reaches v (.inr List.mem_cons_self)
  constructor
  · rintro w (hw | hw)
    · rcases List.mem_cons.mp hw with rfl | hw
      · exact hv
      · exact h.reaches w (.inl hw)
    · rcases List.mem_append.mp hw with hw | hw
      · exact .head (mem_predecessors.mp hw) hv
      · exact h.reaches w (.inr (List.mem_cons_of_mem v hw))
  · exact hkeep p h.start
  · intro w hw q hq
    rcases List.mem_cons.mp hw with rfl | hw
    · exact .inr (List.mem_append_left _ (mem_predecessors.mpr hq))
    · exact hkeep q (h.closed w hw q hq)

/-- The walk ends with nothing waiting.  Only nodes wait, because everything that waits leads to the
node where the walk began. -/
theorem walkBack (hg : g.IsProper) (hp : p ∈ g.nodes) (h : g.WalksBack p waiting seen) :
    g.WalksBack p [] (g.walkBack waiting seen) := by
  induction waiting, seen using LinkGraph.walkBack.induct (g := g) with
  | case1 seen =>
    rw [LinkGraph.walkBack]
    exact h
  | case2 v waiting seen hseen ih =>
    rw [LinkGraph.walkBack, dif_pos hseen]
    exact ih (h.skip hseen)
  | case3 v waiting seen hseen hnode ih =>
    rw [LinkGraph.walkBack, dif_neg hseen, dif_pos hnode]
    exact ih h.visit
  | case4 v waiting seen hseen hnode ih =>
    refine absurd ?_ hnode
    rcases ReflTransGen.cases_head (h.reaches v (.inr List.mem_cons_self)) with rfl | ⟨w, hlink, _⟩
    · exact hp
    · exact hg.source_mem hlink

/-- What has been seen when nothing waits are the nodes that lead to the start. -/
theorem mem_iff (h : g.WalksBack p [] seen) : q ∈ seen ↔ ReflTransGen g.Leads q p := by
  have hclosed : ∀ v ∈ seen, ∀ w, g.Leads w v → w ∈ seen := fun v hv w hw =>
    (h.closed v hv w hw).resolve_right List.not_mem_nil
  constructor
  · exact fun hq => h.reaches q (.inl hq)
  · intro hq
    induction hq using ReflTransGen.head_induction_on with
    | refl => exact h.start.resolve_right List.not_mem_nil
    | head hlink _ ih => exact hclosed _ ih _ hlink

end WalksBack

theorem walksBack_start (g : LinkGraph) (p : String) : g.WalksBack p [p] [] where
  reaches v hv := by
    rcases hv with hv | hv
    · cases hv
    · rw [List.mem_singleton.mp hv]
  start := .inr List.mem_cons_self
  closed v hv := absurd hv List.not_mem_nil

/-- The walk backwards from a node finds the nodes from which it can be reached, itself among
them. -/
theorem IsProper.mem_walkBack_iff (hg : g.IsProper) (hp : p ∈ g.nodes) :
    q ∈ g.walkBack [p] [] ↔ ReflTransGen g.Leads q p :=
  ((g.walksBack_start p).walkBack hg hp).mem_iff

end LinkGraph

namespace Store

variable {locked : String → Bool}

/-- The transitive dependents of a path are asked for in vain exactly if the store does not have the
path.  Otherwise they are the increasing list of all other paths from which a chain of one or more
references leads to it. -/
theorem dependents_are_all_that_reach (s : Store locked) (p : String) :
    (s.graph.transitiveDependents? p = none ↔ p ∉ s.paths) ∧
      ∀ l, s.graph.transitiveDependents? p = some l ↔
        p ∈ s.paths ∧ l.Pairwise (· < ·) ∧
          ∀ q, q ∈ l ↔ q ≠ p ∧ TransGen s.graph.Leads q p := by
  have hnodes : s.graph.nodes = s.paths := rfl
  by_cases hp : p ∈ s.paths
  · let found := Text.sorted ((s.graph.walkBack [p] []).filter fun w => w != p)
    have hsome : s.graph.transitiveDependents? p = some found := by
      simp [LinkGraph.transitiveDependents?, hnodes, hp, found]
    have hmem : ∀ q, q ∈ found ↔ q ≠ p ∧ TransGen s.graph.Leads q p := by
      intro q
      rw [Text.mem_sorted, List.mem_filter, s.graph_isProper.mem_walkBack_iff hp,
        reflTransGen_iff_eq_or_transGen]
      by_cases hq : q = p
      · simp [hq]
      · simp [hq, Ne.symm hq]
    rw [hsome]
    refine ⟨iff_of_false (by simp) (not_not_intro hp), fun l => ?_⟩
    rw [and_iff_right hp, Option.some.injEq]
    constructor
    · rintro rfl
      exact ⟨Text.pairwise_lt_sorted _, hmem⟩
    · rintro ⟨hsorted, hl⟩
      refine Text.eq_of_pairwise_lt (Text.pairwise_lt_sorted _) hsorted fun q => ?_
      rw [hl]
      exact hmem q
  · have hnone : s.graph.transitiveDependents? p = none := by
      simp [LinkGraph.transitiveDependents?, hnodes, hp]
    simp [hnone, hp]

/-- A cycle of two tokens, one of which also names itself, and two ways from a third to it. -/
def cycleWithTwoWaysIn : OpenStore :=
  ⟨[{ path := "c", value := .text "\x7ba\x7d \x7bb\x7d" },
    { path := "b", value := .text "\x7ba\x7d 1px \x7bb\x7d" },
    { path := "a", value := .text "\x7bb\x7d" },
    { path := "d", value := .text "\x7bmissing\x7d" }], by decide⟩

example : cycleWithTwoWaysIn.graph.transitiveDependents? "a" = some ["b", "c"] := by
  have hgraph : cycleWithTwoWaysIn.graph = ⟨["c", "b", "a", "d"], [⟨"c", "a", true⟩,
      ⟨"c", "b", true⟩, ⟨"b", "a", true⟩, ⟨"b", "b", true⟩, ⟨"a", "b", true⟩,
      ⟨"d", "missing", false⟩]⟩ := by decide +kernel
  rw [hgraph]
  cbv

end Store

end DesignTokens
