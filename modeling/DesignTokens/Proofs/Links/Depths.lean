import DesignTokens.Proofs.Links.Order
import Mathlib.Order.Bounds.Defs

/-!
# Depths

The depth that the survey gives a node is a maximum over its links: a link to a node that the
search left before counts one more than the depth of that node, and a link back into the trail
counts one.  Depths refer only to depths that were settled before, so none exceeds the number of
nodes, and where no link leads back the depth of a node is the length of the longest chain of
references that starts there.
-/

namespace DesignTokens

namespace Survey

variable {closed closed' : List (String × Nat)} {ws : List String} {d n : Nat} {v w : String}

/-- What a link to a node counts after some nodes have been left with their depths. -/
def linkDepth (closed : List (String × Nat)) (w : String) : Nat :=
  match closed.lookup w with
  | some d => d + 1
  | none => 1

/-- The greatest of a depth and of what the links to some nodes count. -/
def depthOver (closed : List (String × Nat)) (ws : List String) (d : Nat) : Nat :=
  ws.foldl (fun d w => max d (linkDepth closed w)) d

theorem depthOver_cons (closed : List (String × Nat)) (w : String) (ws : List String) (d : Nat) :
    depthOver closed (w :: ws) d = depthOver closed ws (max d (linkDepth closed w)) := rfl

theorem depthOver_le_iff :
    depthOver closed ws d ≤ n ↔ d ≤ n ∧ ∀ w ∈ ws, linkDepth closed w ≤ n := by
  induction ws generalizing d with
  | nil => simp [depthOver]
  | cons w ws ih => rw [depthOver_cons, ih, Nat.max_le, List.forall_mem_cons, and_assoc]

/-- The maximum is reached. -/
theorem depthOver_mem (closed : List (String × Nat)) (ws : List String) (d : Nat) :
    depthOver closed ws d = d ∨ ∃ w ∈ ws, linkDepth closed w = depthOver closed ws d := by
  induction ws generalizing d with
  | nil => exact .inl rfl
  | cons w ws ih =>
    rw [depthOver_cons]
    rcases ih (max d (linkDepth closed w)) with hmax | ⟨x, hx, hdepth⟩
    · rcases Nat.le_total (linkDepth closed w) d with hle | hle
      · exact .inl (hmax.trans (Nat.max_eq_left hle))
      · exact .inr ⟨w, List.mem_cons_self, (hmax.trans (Nat.max_eq_right hle)).symm⟩
    · exact .inr ⟨x, List.mem_cons_of_mem _ hx, hdepth⟩

/-- A node that has been left keeps its depth. -/
theorem linkDepth_of_prefix (h : closed <+: closed') (hw : closed.lookup w = some d) :
    linkDepth closed' w = d + 1 := by
  obtain ⟨more, rfl⟩ := h
  simp [linkDepth, List.lookup_append, hw]

@[simp]
theorem closed_reach (s : Survey) (v : String) : (s.reach v).closed = s.closed := rfl

@[simp]
theorem closed_leave (s : Survey) (v : String) (depth : Nat) :
    (s.leave v depth).closed = s.closed ++ [(v, depth)] := rfl

@[simp]
theorem closed_addCycle (s : Survey) (c : List String) : (s.addCycle c).closed = s.closed := by
  rcases s.addCycle_cases c with ⟨_, hsame⟩ | hadded
  · rw [hsame]
  · rw [hadded]

end Survey

namespace LinkGraph

open Survey

variable {g : LinkGraph} {trail vs : List String} {s : Survey} {v : String} {d : Nat}
  {before after : List (String × Nat)}

/-! ## What the depths are the maxima of -/

/-- Every node was left with the greatest of what its links counted then. -/
def Measured (g : LinkGraph) (closed : List (String × Nat)) : Prop :=
  ∀ before v d after, closed = before ++ (v, d) :: after →
    d = depthOver before (g.successors v) 0

theorem Measured.concat {closed : List (String × Nat)} (h : g.Measured closed)
    (hd : d = depthOver closed (g.successors v) 0) : g.Measured (closed ++ [(v, d)]) := by
  intro before u e after hsplit
  rcases List.eq_nil_or_concat after with rfl | ⟨rest, x, rfl⟩
  · obtain ⟨rfl, hlast⟩ := List.append_inj' hsplit rfl
    cases hlast
    exact hd
  · -- The last node stays where it is, and the others are a list as before.
    have hsplit' : closed ++ [(v, d)] = (before ++ (u, e) :: rest) ++ [x] := by simpa using hsplit
    obtain ⟨hfront, _⟩ := List.append_inj' hsplit' rfl
    exact h before u e rest hfront

/-- The search below a trail adds to the depth so far what the links count in the end, and leaves
each node with what its links count. -/
theorem Underway.explore_depth (hg : g.IsProper) (h : g.Underway trail s)
    (hmem : ∀ v ∈ vs, v ∈ g.nodes) (hhead : ∀ u ∈ trail.head?, ∀ v ∈ vs, g.Leads u v)
    (depth : Nat) :
    s.closed <+: (g.explore trail vs depth s).2.closed ∧
      (g.explore trail vs depth s).1 =
        depthOver (g.explore trail vs depth s).2.closed vs depth ∧
      (g.Measured s.closed → g.Measured (g.explore trail vs depth s).2.closed) := by
  refine Underway.explore_induction hg
    (motive := fun _ vs depth s r => s.closed <+: r.2.closed ∧
      r.1 = depthOver r.2.closed vs depth ∧ (g.Measured s.closed → g.Measured r.2.closed))
    ?nil ?left ?back ?new h hmem hhead depth
  case nil =>
    intro trail depth s _
    exact ⟨List.prefix_refl _, rfl, id⟩
  case left =>
    intro trail v rest depth s d r _ hdepth ih
    obtain ⟨hbegins, hmax, hmeasured⟩ := ih
    refine ⟨hbegins, ?_, hmeasured⟩
    rw [hmax, depthOver_cons, linkDepth_of_prefix hbegins hdepth]
  case back =>
    intro trail v rest depth s r _ hend htrail _ _ ih
    obtain ⟨hbegins, hmax, hmeasured⟩ := ih
    rw [closed_addCycle] at hbegins hmeasured
    -- A node of the trail has not been left even in the end.
    have hopen : r.2.closed.lookup v = none := depth?_eq_none_iff.mpr (hend.apart v htrail)
    refine ⟨hbegins, ?_, hmeasured⟩
    rw [hmax, depthOver_cons, linkDepth, hopen]
  case new =>
    intro trail v rest depth s below r _ _ _ _ hbelow _ ihbelow ihrest
    obtain ⟨hbegins, hmax, hmeasured⟩ := ihbelow
    obtain ⟨hbegins', hmax', hmeasured'⟩ := ihrest
    rw [closed_reach] at hbegins hmeasured
    rw [closed_leave] at hbegins' hmeasured'
    -- Until it is left the node is on the trail, so its depth is the one that it is left with.
    have hopen : below.2.closed.lookup v = none :=
      depth?_eq_none_iff.mpr (hbelow.apart v List.mem_cons_self)
    have hleft : (below.2.closed ++ [(v, below.1)]).lookup v = some below.1 := by
      simp [List.lookup_append, hopen]
    refine ⟨hbegins.trans ((List.prefix_append _ _).trans hbegins'), ?_, ?_⟩
    · rw [hmax', depthOver_cons, linkDepth_of_prefix hbegins' hleft]
    · intro hs
      exact hmeasured' ((hmeasured hs).concat hmax)

theorem IsProper.measured_survey (hg : g.IsProper) : g.Measured g.survey.closed := by
  obtain ⟨_, _, hmeasured⟩ :=
    (underway_start g).explore_depth hg (fun _ hv => hv) (by simp) 0
  refine hmeasured ?_
  intro before v d after hsplit
  simp at hsplit

/-! ## No depth exceeds the number of nodes -/

/-- The depth of a node is at most its place in the order in which the nodes are left. -/
theorem Measured.depth_le {closed : List (String × Nat)} (h : g.Measured closed)
    (hsplit : closed = before ++ (v, d) :: after) : d ≤ before.length + 1 := by
  induction hn : before.length using Nat.strong_induction_on generalizing before v d after with
  | _ n ih =>
    rw [h before v d after hsplit, depthOver_le_iff]
    refine ⟨Nat.zero_le _, ?_⟩
    intro w _
    unfold linkDepth
    split
    · next e hw =>
      obtain ⟨front, mid, hfront⟩ := List.lookup_eq_some_iff.mp hw
      have hsplit' : closed = front ++ (w, e) :: (mid ++ (v, d) :: after) := by
        rw [hsplit, hfront.1]
        simp
      have hshorter : front.length < n := by
        rw [← hn, hfront.1]
        simp
      have hdepth := ih front.length hshorter hsplit' rfl
      omega
    · omega

/-- The search leaves every node with a depth, at most the number of nodes. -/
theorem IsProper.exists_depth? (hg : g.IsProper) (hv : v ∈ g.nodes) :
    ∃ before d after, g.survey.closed = before ++ (v, d) :: after ∧ g.survey.depth? v = some d ∧
      d ≤ g.nodes.length := by
  cases hdepth : g.survey.depth? v with
  | none => exact absurd (hg.mem_finished_iff.mpr hv) (depth?_eq_none_iff.mp hdepth)
  | some d =>
    obtain ⟨before, after, hsplit, _⟩ := List.lookup_eq_some_iff.mp hdepth
    have hlength : g.survey.closed.length = g.nodes.length := by
      simpa [finished] using hg.finished_perm.length_eq
    have hdepth := hg.measured_survey.depth_le hsplit
    refine ⟨before, d, after, hsplit, rfl, ?_⟩
    rw [hsplit] at hlength
    simp only [List.length_append, List.length_cons] at hlength
    omega

/-! ## Without cycles the depth is that of the longest chain -/

/-- The lengths, in links, of the chains of resolved links that start at a path. -/
def chainLengths (g : LinkGraph) (v : String) : Set Nat :=
  {n | ∃ l : List String, (v :: l).IsChain g.Leads ∧ l.length = n}

theorem IsProper.isGreatest_depth (hg : g.IsProper) (hacyclic : ¬ g.Cyclic)
    (hsplit : g.survey.closed = before ++ (v, d) :: after) :
    IsGreatest (g.chainLengths v) d := by
  have hnil : g.survey.cycles = [] := by
    by_contra hsome
    exact hacyclic (hg.cycles_ne_nil_iff.mp hsome)
  induction hn : before.length using Nat.strong_induction_on generalizing before v d after with
  | _ n ih =>
    have hd := hg.measured_survey before v d after hsplit
    -- The targets of the node were left before it, with the lengths of their longest chains.
    have htarget : ∀ w, g.Leads v w →
        ∃ e, linkDepth before w = e + 1 ∧ IsGreatest (g.chainLengths w) e := by
      intro w hw
      have hfinished : g.survey.finished = before.map Prod.fst ++ v :: after.map Prod.fst := by
        simp [finished, hsplit]
      have hbefore := hg.underway_survey.targets_first hnil _ v _ hfinished w hw
      cases hlookup : before.lookup w with
      | none =>
        obtain ⟨p, hp, rfl⟩ := List.mem_map.mp hbefore
        simpa using List.lookup_eq_none_iff.mp hlookup p hp
      | some e =>
        obtain ⟨front, mid, hfront, _⟩ := List.lookup_eq_some_iff.mp hlookup
        have hsplit' : g.survey.closed = front ++ (w, e) :: (mid ++ (v, d) :: after) := by
          rw [hsplit, hfront]
          simp
        have hshorter : front.length < n := by
          rw [← hn, hfront]
          simp
        exact ⟨e, by rw [linkDepth, hlookup], ih front.length hshorter hsplit' rfl⟩
    constructor
    · rcases depthOver_mem before (g.successors v) 0 with hzero | ⟨w, hw, hreached⟩
      · exact ⟨[], .singleton v, (hd.trans hzero).symm⟩
      · obtain ⟨e, he, ⟨l, hchain, hlength⟩, _⟩ := htarget w hw
        refine ⟨w :: l, List.isChain_cons_cons.mpr ⟨hw, hchain⟩, ?_⟩
        rw [hd, ← hreached, he, List.length_cons, hlength]
    · rintro _ ⟨l, hchain, rfl⟩
      cases l with
      | nil => exact Nat.zero_le d
      | cons w l =>
        obtain ⟨hw, hrest⟩ := List.isChain_cons_cons.mp hchain
        obtain ⟨e, he, _, hlongest⟩ := htarget w hw
        have hle : l.length ≤ e := hlongest ⟨l, hrest, rfl⟩
        have hlink : linkDepth before w ≤ d := (depthOver_le_iff.mp hd.ge).2 w hw
        rw [List.length_cons]
        omega

end LinkGraph

/-! ## Depths on report -/

def LinkDefect.isDeepChain : LinkDefect → Bool
  | deepChain _ _ _ => true
  | _ => false

/-- The remarks on deep chains, in order. -/
def LinkReport.deepChains (r : LinkReport) : List LinkDefect :=
  r.defects.filter LinkDefect.isDeepChain

namespace Store

open LinkGraph

variable {locked : String → Bool}

theorem filter_isDeepChain_nodeDefects (t : LinkThresholds) (size : Nat) (n : NodeReport) :
    (nodeDefects t size n).filter LinkDefect.isDeepChain =
      if t.deepChain < n.depth then [.deepChain n.path n.depth t.deepChain] else [] := by
  rw [nodeDefects, List.filter_append]
  have horphan : (if n.isolated && t.orphanStoreSize < size then [LinkDefect.orphaned n.path]
      else []).filter LinkDefect.isDeepChain = [] := by
    split
    · rfl
    · rfl
  rw [horphan, List.append_nil]
  split
  · rfl
  · rfl

theorem deepChains_linkReport (s : Store locked) (t : LinkThresholds) :
    (s.linkReport t).deepChains =
      ((s.linkReport t).nodes.filter fun n => t.deepChain < n.depth).map fun n =>
        .deepChain n.path n.depth t.deepChain := by
  have hnodes : ∀ (size : Nat) (nodes : List NodeReport),
      (nodes.flatMap (nodeDefects t size)).filter LinkDefect.isDeepChain =
        (nodes.filter fun n => t.deepChain < n.depth).map fun n =>
          .deepChain n.path n.depth t.deepChain := by
    intro size nodes
    induction nodes with
    | nil => rfl
    | cons n nodes ih =>
      rw [List.flatMap_cons, List.filter_append, ih, filter_isDeepChain_nodeDefects]
      by_cases hdeep : t.deepChain < n.depth
      · simp [hdeep]
      · simp [hdeep]
  simp [LinkReport.deepChains, linkReport, report, hnodes, List.filter_map, Function.comp_def,
    LinkDefect.isDeepChain]

/-- The report gives every token the depth with which the survey left it, which is at most the
number of tokens.  Without cycles it is the length of the longest chain of references from the
token.  Whatever the threshold is, the remarks on deep chains are on the tokens whose depth exceeds
it, one on each. -/
theorem depth_is_longest_chain (s : Store locked) (t : LinkThresholds) :
    (s.linkReport t).nodes.map NodeReport.path = s.paths ∧
      (∀ n ∈ (s.linkReport t).nodes,
        s.graph.survey.depth? n.path = some n.depth ∧ n.depth ≤ s.size) ∧
      (¬ s.graph.Cyclic → ∀ n ∈ (s.linkReport t).nodes,
        IsGreatest (s.graph.chainLengths n.path) n.depth) ∧
      (s.linkReport t).deepChains =
        ((s.linkReport t).nodes.filter fun n => t.deepChain < n.depth).map (fun n =>
          .deepChain n.path n.depth t.deepChain) ∧
      ((s.linkReport t).deepChains.flatMap LinkDefect.paths).Nodup := by
  have hg := s.graph_isProper
  have hpaths : (s.linkReport t).nodes.map NodeReport.path = s.paths := by
    simp [linkReport, report, graph, Function.comp_def, nodeReport]
  have hleft : ∀ n ∈ (s.linkReport t).nodes, ∃ before after,
      s.graph.survey.closed = before ++ (n.path, n.depth) :: after ∧
        s.graph.survey.depth? n.path = some n.depth ∧ n.depth ≤ s.graph.nodes.length := by
    intro n hn
    obtain ⟨v, hv, rfl⟩ := List.mem_map.mp hn
    obtain ⟨before, d, after, hsplit, hdepth, hle⟩ := hg.exists_depth? hv
    have hd : (s.graph.nodeReport s.graph.survey v).depth = d := by
      simp [nodeReport, hdepth]
    rw [hd]
    exact ⟨before, after, hsplit, hdepth, hle⟩
  refine ⟨hpaths, fun n hn => ?_, fun hacyclic n hn => ?_, deepChains_linkReport s t, ?_⟩
  · obtain ⟨_, _, _, hdepth, hle⟩ := hleft n hn
    exact ⟨hdepth, by rwa [size_eq_length_paths]⟩
  · obtain ⟨_, _, hsplit, _⟩ := hleft n hn
    exact hg.isGreatest_depth hacyclic hsplit
  · have hnamed : (s.linkReport t).deepChains.flatMap LinkDefect.paths =
        ((s.linkReport t).nodes.filter fun n => t.deepChain < n.depth).map NodeReport.path := by
      rw [deepChains_linkReport, List.flatMap_map]
      exact List.flatMap_pure_eq_map _ _
    rw [hnamed]
    exact (List.filter_sublist.map NodeReport.path).nodup (hpaths ▸ s.nodup_paths)

/-- Two chains that share their end, the shorter one listed first, and a loop beside them. -/
def sharedEnd : OpenStore :=
  ⟨[{ path := "b", value := .text "\x7bc\x7d" },
    { path := "c", value := .color "#3B82F6" },
    { path := "a", value := .text "\x7bc\x7d \x7bb\x7d" }], by decide⟩

/-- The longer of the two chains counts, and with a threshold of one it is remarked on; in a store
with loops a depth can be as great as the number of tokens. -/
theorem depth_is_longest_chain_sharedEnd :
    ¬ sharedEnd.graph.Cyclic ∧
      (∃ n ∈ (sharedEnd.linkReport { deepChain := 1 }).nodes, n.path = "a" ∧ n.depth = 2 ∧
        IsGreatest (sharedEnd.graph.chainLengths "a") 2) ∧
      (sharedEnd.linkReport { deepChain := 1 }).deepChains = [.deepChain "a" 2 1] ∧
      ∃ n ∈ (twoLoops.linkReport {}).nodes,
        n.path = "a" ∧ n.depth = 3 ∧ n.depth ≤ twoLoops.size := by
  have hgraph : sharedEnd.graph =
      ⟨["b", "c", "a"], [⟨"b", "c", true⟩, ⟨"a", "c", true⟩, ⟨"a", "b", true⟩]⟩ := by
    decide +kernel
  have hsurvey : sharedEnd.graph.survey =
      ⟨["b", "c", "a"], [("c", 0), ("b", 1), ("a", 2)], []⟩ := by
    rw [hgraph]
    simp [LinkGraph.survey, LinkGraph.explore, LinkGraph.successors, Survey.depth?, Survey.reach,
      Survey.leave, List.lookup_cons]
  have hacyclic : ¬ sharedEnd.graph.Cyclic := by
    refine not_cyclic_of_rank (fun p => ["c", "b", "a"].idxOf p) ?_
    rw [hgraph]
    decide
  obtain ⟨hpaths, hdepths, hlongest, _, _⟩ := depth_is_longest_chain sharedEnd { deepChain := 1 }
  obtain ⟨hpaths', hdepths', _⟩ := depth_is_longest_chain twoLoops {}
  obtain ⟨n, hn, hpath⟩ : ∃ n ∈ (sharedEnd.linkReport { deepChain := 1 }).nodes, n.path = "a" :=
    List.mem_map.mp (hpaths ▸ by decide)
  obtain ⟨m, hm, hpath'⟩ : ∃ m ∈ (twoLoops.linkReport {}).nodes, m.path = "a" :=
    List.mem_map.mp (hpaths' ▸ by decide)
  have hdepth : n.depth = 2 := by
    simpa [hpath, hsurvey, Survey.depth?, List.lookup_cons] using (hdepths n hn).1.symm
  have hdepth' : m.depth = 3 := by
    simpa [hpath', survey_twoLoops, Survey.depth?, List.lookup_cons] using (hdepths' m hm).1.symm
  refine ⟨hacyclic, ⟨n, hn, hpath, hdepth, ?_⟩, ?_, m, hm, hpath', hdepth', (hdepths' m hm).2⟩
  · simpa [hpath, hdepth] using hlongest hacyclic n hn
  · rw [linkReport, LinkGraph.report, hsurvey, hgraph]
    decide +kernel

end Store

end DesignTokens
