import DesignTokens.Proofs.Links.Order
import Mathlib.Algebra.GroupWithZero.Nat

/-!
# What a report shows of a store

The references of a store are kept several times over: as a list of links, as the links that the
search follows, in both directions at every node, in the roles of the nodes and in the defects.
`LinkReport.IsViewOf` says that all of them tell the same, and `linkReport_isViewOf` that they do.

The links of a token are found again in the list because no other token has its path.  Everything
that is said about a node is then said about the targets of the token that stands there.
-/

namespace DesignTokens

/-- The link that a defect is about, if it is about a missing path. -/
def LinkDefect.link? : LinkDefect → Option Link
  | unresolved l => some l
  | _ => none

/-- What it takes for a report to show the references of a store and nothing else. -/
structure LinkReport.IsViewOf {locked : String → Bool} (r : LinkReport) (s : Store locked) :
    Prop where
  nodes : (r.nodes.map fun n => (n.path, n.references)) =
    s.tokens.map fun t => (t.path, t.targets s.contains)
  links : r.links = s.tokens.flatMap fun t =>
    (t.targets s.contains).map fun p => ⟨t.path, p, decide (p ∈ s.paths)⟩
  -- The search follows the references that are resolved, in their order.
  followed : ∀ n ∈ r.nodes,
    s.graph.successors n.path = n.references.filter fun p => decide (p ∈ s.paths)
  converse : ∀ n ∈ r.nodes, ∀ m ∈ r.nodes, n.path ∈ m.referrers ↔ m.path ∈ n.references
  referrers_known : ∀ n ∈ r.nodes, ∀ p ∈ n.referrers, p ∈ s.paths
  referrers_increasing : ∀ n ∈ r.nodes, n.referrers.Pairwise (· < ·)
  isolated : ∀ n ∈ r.nodes,
    n.isolated = true ↔ ∀ l ∈ r.links, l.source ≠ n.path ∧ l.target ≠ n.path
  primitive : ∀ n ∈ r.nodes, n.role = .primitive ↔ n.references = []
  semantic : ∀ n ∈ r.nodes, n.role = .semantic ↔ ∃ p ∈ n.references, p ∈ s.paths
  unknown : ∀ n ∈ r.nodes,
    n.role = .unknown ↔ n.references ≠ [] ∧ ∀ p ∈ n.references, p ∉ s.paths
  unresolved : r.defects.filterMap LinkDefect.link? = r.links.filter fun l => !l.resolved
  total : r.links.length = (r.nodes.map fun n => n.references.length).sum
  roles : r.countRole .primitive + r.countRole .semantic + r.countRole .unknown = s.size

namespace LinkGraph

variable {g : LinkGraph} {v : String}

/-! ## Links from a node -/

/-- The links that start at a node, in order of discovery. -/
def linksFrom (g : LinkGraph) (v : String) : List Link := g.links.filter fun l => l.source = v

theorem references_eq (g : LinkGraph) (v : String) :
    g.references v = (g.linksFrom v).map Link.target := by
  rw [linksFrom, ← List.filterMap_eq_map, List.filterMap_filter, references]
  exact List.filterMap_congr fun l _ => by simp

theorem successors_eq (g : LinkGraph) (v : String) :
    g.successors v = ((g.linksFrom v).filter Link.resolved).map Link.target := by
  rw [linksFrom, List.filter_filter, ← List.filterMap_eq_map, List.filterMap_filter, successors]
  exact List.filterMap_congr fun l _ => by
    by_cases hsource : l.source = v <;> by_cases hresolved : l.resolved <;>
      simp [hsource, hresolved]

/-! ## Roles -/

theorem role_eq_primitive_iff : g.role v = .primitive ↔ g.references v = [] := by
  unfold role
  split
  · next h => simpa using h
  · next h =>
    have hsome : g.references v ≠ [] := by simpa using h
    split <;> simp [hsome]

/-- A resolved link is a reference, so a node with one is not primitive. -/
theorem role_eq_semantic_iff : g.role v = .semantic ↔ g.successors v ≠ [] := by
  have hnone : g.references v = [] → g.successors v = [] := by
    rw [references_eq, successors_eq, List.map_eq_nil_iff]
    intro h
    simp [h]
  unfold role
  split
  · next h => simp [hnone (by simpa using h)]
  · split
    · next h => simpa using h
    · next h => simpa using h

theorem role_eq_unknown_iff :
    g.role v = .unknown ↔ g.references v ≠ [] ∧ g.successors v = [] := by
  unfold role
  split
  · next h =>
    have hnone : g.references v = [] := by simpa using h
    simp [hnone]
  · next h =>
    have hsome : g.references v ≠ [] := by simpa using h
    split
    · next hstuck => simpa [hsome] using hstuck
    · next hstuck => simpa using fun _ => by simpa using hstuck

/-! ## Defects -/

/-- What is remarked on a node is no missing path. -/
theorem filterMap_link?_nodeDefects (t : LinkThresholds) (size : Nat) (nodes : List NodeReport) :
    (nodes.flatMap (nodeDefects t size)).filterMap LinkDefect.link? = [] := by
  refine List.filterMap_eq_nil_iff.mpr fun d hd => ?_
  rcases List.mem_flatMap.mp hd with ⟨n, _, hmem⟩
  rcases List.mem_append.mp hmem with hmem | hmem
  all_goals
    split at hmem
    · rw [List.mem_singleton.mp hmem]
      rfl
    · cases hmem

theorem filterMap_link?_report (g : LinkGraph) (t : LinkThresholds) :
    (g.report t).defects.filterMap LinkDefect.link? = g.links.filter fun l => !l.resolved := by
  have hcircular : (g.survey.cycles.map LinkDefect.circular).filterMap LinkDefect.link? = [] := by
    simp [LinkDefect.link?, List.filterMap_map, Function.comp_def]
  have hunresolved : ∀ ls : List Link,
      (ls.map LinkDefect.unresolved).filterMap LinkDefect.link? = ls := by
    intro ls
    simp [LinkDefect.link?, List.filterMap_map, Function.comp_def]
  simp only [report, List.filterMap_append, hcircular, hunresolved, filterMap_link?_nodeDefects,
    List.append_nil]

/-- Every node has one of the three roles. -/
theorem countRole_add (r : LinkReport) :
    r.countRole .primitive + r.countRole .semantic + r.countRole .unknown = r.nodes.length := by
  unfold LinkReport.countRole
  induction r.nodes with
  | nil => rfl
  | cons n nodes ih =>
    cases hrole : n.role <;> simp [hrole] <;> omega

end LinkGraph

namespace Store

variable {locked : String → Bool} {s : Store locked} {t : Token} {p : String}

/-- The links of one token. -/
def linksOf (s : Store locked) (t : Token) : List Link :=
  (t.targets s.contains).map fun p => ⟨t.path, p, s.contains p⟩

/-- The links from a path of a store are those of the token that stands there. -/
theorem linksFrom_path (ht : t ∈ s.tokens) : s.graph.linksFrom t.path = s.linksOf t := by
  have hothers : ∀ us : List Token, (∀ u ∈ us, u.path ≠ t.path) →
      (us.flatMap s.linksOf).filter (fun l => decide (l.source = t.path)) = [] := by
    intro us hus
    refine List.filter_eq_nil_iff.mpr fun l hl => ?_
    rcases List.mem_flatMap.mp hl with ⟨u, hu, hlink⟩
    rcases List.mem_map.mp hlink with ⟨q, _, rfl⟩
    simpa using hus u hu
  have hown : (s.linksOf t).filter (fun l => decide (l.source = t.path)) = s.linksOf t := by
    refine List.filter_eq_self.mpr fun l hl => ?_
    rcases List.mem_map.mp hl with ⟨q, _, rfl⟩
    simp
  -- No token before or after this one has its path.
  obtain ⟨before, after, hsplit⟩ := List.append_of_mem ht
  have hdistinct := s.distinct
  rw [hsplit, List.map_append, List.map_cons, List.nodup_append, List.nodup_cons] at hdistinct
  rcases hdistinct with ⟨_, ⟨hafter, _⟩, hbefore⟩
  have hlinks : s.graph.links = s.tokens.flatMap s.linksOf := rfl
  rw [LinkGraph.linksFrom, hlinks, hsplit, List.flatMap_append, List.flatMap_cons,
    List.filter_append, List.filter_append, hown, hothers before, hothers after]
  · simp
  · intro u hu heq
    exact hafter (heq ▸ List.mem_map_of_mem hu)
  · intro u hu heq
    exact hbefore _ (List.mem_map_of_mem hu) _ List.mem_cons_self heq

theorem references_path (ht : t ∈ s.tokens) :
    s.graph.references t.path = t.targets s.contains := by
  rw [LinkGraph.references_eq, linksFrom_path ht, linksOf, List.map_map]
  exact List.map_id'' (fun _ => rfl) _

theorem successors_path (ht : t ∈ s.tokens) :
    s.graph.successors t.path = (t.targets s.contains).filter s.contains := by
  rw [LinkGraph.successors_eq, linksFrom_path ht, linksOf, List.filter_map, List.map_map]
  exact List.map_id'' (fun _ => rfl) _

/-- Whether a link is resolved is decided by its target alone. -/
theorem resolved_of_mem_links {l : Link} (hl : l ∈ s.graph.links) :
    l.resolved = s.contains l.target := by
  rcases List.mem_flatMap.mp hl with ⟨t, _, hlink⟩
  rcases List.mem_map.mp hlink with ⟨q, _, rfl⟩
  rfl

theorem references_eq_nil_iff : s.graph.references p = [] ↔ ∀ l ∈ s.graph.links, l.source ≠ p := by
  rw [LinkGraph.references_eq, List.map_eq_nil_iff, LinkGraph.linksFrom, List.filter_eq_nil_iff]
  simp

/-- Every link to a path of the store is resolved. -/
theorem predecessors_eq_nil_iff (hp : p ∈ s.paths) :
    s.graph.predecessors p = [] ↔ ∀ l ∈ s.graph.links, l.target ≠ p := by
  rw [LinkGraph.predecessors, List.filterMap_eq_nil_iff]
  refine forall_congr' fun l => forall_congr' fun hl => ?_
  have hknown : l.target = p → l.resolved = true := by
    rintro rfl
    rw [resolved_of_mem_links hl, contains_iff.mpr hp]
  rw [ite_eq_right_iff]
  constructor
  · intro h htarget
    exact Option.some_ne_none _ (h ⟨htarget, hknown htarget⟩)
  · intro h hlink
    exact absurd hlink.1 h

/-! ## The report -/

theorem nodes_linkReport (s : Store locked) (t : LinkThresholds) :
    (s.linkReport t).nodes = s.tokens.map fun u => s.graph.nodeReport s.graph.survey u.path :=
  List.map_map

theorem length_links (s : Store locked) :
    s.graph.links.length = (s.tokens.map fun t => (t.targets s.contains).length).sum := by
  have hlinks : s.graph.links = s.tokens.flatMap s.linksOf := rfl
  rw [hlinks, List.length_flatMap]
  simp [linksOf]

/-- A report of a store is a view of it.  Nodes and links are those of the tokens in their order,
the two directions are converse to each other, roles and isolation are what the links say, every
unresolved link is one defect, and the counts add up. -/
theorem linkReport_isViewOf (s : Store locked) (t : LinkThresholds) :
    (s.linkReport t).IsViewOf s := by
  have hcontains : s.contains = fun p => decide (p ∈ s.paths) := by
    funext p
    rw [Bool.eq_iff_iff, contains_iff, decide_eq_true_iff]
  have hnode : ∀ n ∈ (s.linkReport t).nodes, ∃ u ∈ s.tokens, n.path = u.path ∧
      n.references = u.targets s.contains ∧
      n = s.graph.nodeReport s.graph.survey u.path := by
    intro n hn
    rw [nodes_linkReport] at hn
    rcases List.mem_map.mp hn with ⟨u, hu, rfl⟩
    exact ⟨u, hu, rfl, references_path hu, rfl⟩
  constructor
  case nodes =>
    rw [nodes_linkReport, List.map_map]
    exact List.map_congr_left fun u hu => congrArg (Prod.mk u.path) (references_path hu)
  case links =>
    have hlinks : (s.linkReport t).links = s.tokens.flatMap s.linksOf := rfl
    rw [hlinks]
    refine congrArg (List.flatMap · s.tokens) (funext fun u => ?_)
    simp only [linksOf, hcontains]
  case followed =>
    intro n hn
    rcases hnode n hn with ⟨u, hu, hpath, hrefs, _⟩
    rw [hpath, hrefs, successors_path hu, ← hcontains]
  case converse =>
    intro n hn m hm
    rcases hnode n hn with ⟨u, hu, hpath, hrefs, _⟩
    rcases hnode m hm with ⟨w, hw, _, _, rfl⟩
    change n.path ∈ Text.sorted (s.graph.predecessors w.path) ↔ w.path ∈ n.references
    rw [Text.mem_sorted, LinkGraph.mem_predecessors, hpath, leads_iff_of_mem hu, hrefs]
    exact and_iff_left (path_mem_paths hw)
  case referrers_known =>
    intro n hn p hp
    rcases hnode n hn with ⟨u, _, _, _, rfl⟩
    exact (mem_paths_of_leads (LinkGraph.mem_predecessors.mp (Text.mem_sorted.mp hp))).1
  case referrers_increasing =>
    intro n hn
    rcases hnode n hn with ⟨u, _, _, _, rfl⟩
    exact Text.pairwise_lt_sorted _
  case isolated =>
    intro n hn
    rcases hnode n hn with ⟨u, hu, _, _, rfl⟩
    change ((s.graph.references u.path).isEmpty && (s.graph.predecessors u.path).isEmpty) = true ↔
      ∀ l ∈ s.graph.links, l.source ≠ u.path ∧ l.target ≠ u.path
    rw [Bool.and_eq_true, List.isEmpty_iff, List.isEmpty_iff, references_eq_nil_iff,
      predecessors_eq_nil_iff (path_mem_paths hu)]
    exact forall₂_and.symm
  case primitive =>
    intro n hn
    rcases hnode n hn with ⟨u, hu, _, _, rfl⟩
    exact LinkGraph.role_eq_primitive_iff
  case semantic =>
    intro n hn
    rcases hnode n hn with ⟨u, hu, _, hrefs, rfl⟩
    rw [hrefs]
    refine LinkGraph.role_eq_semantic_iff.trans ?_
    rw [successors_path hu, hcontains]
    simp
  case unknown =>
    intro n hn
    rcases hnode n hn with ⟨u, hu, _, hrefs, rfl⟩
    rw [hrefs]
    refine LinkGraph.role_eq_unknown_iff.trans ?_
    rw [references_path hu, successors_path hu, hcontains]
    simp
  case unresolved => exact LinkGraph.filterMap_link?_report s.graph t
  case total =>
    rw [nodes_linkReport, List.map_map]
    refine (length_links s).trans (congrArg List.sum (List.map_congr_left fun u hu => ?_))
    exact congrArg List.length (references_path hu).symm
  case roles =>
    rw [LinkGraph.countRole_add, nodes_linkReport, List.length_map]
    rfl

end Store

end DesignTokens
