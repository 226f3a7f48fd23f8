import DesignTokens.Links.Report
import DesignTokens.Proofs.Links.Search

/-!
# Cycles found in two ways

A cycle shows up as a link back into the trail of the survey, and it keeps the nodes from being
listed with all targets first.  The two ways of looking agree with each other and with the graph:
the report of a store has circular defects, and its paths have no order, exactly if a chain of
resolved links comes back to where it started.
-/

namespace DesignTokens

namespace LinkGraph

variable {g : LinkGraph} {p v : String} {l : List String}

/-! ## The check of an order -/

theorem mem_predecessors : p ∈ g.predecessors v ↔ g.Leads p v := by
  rw [leads_iff, predecessors, List.mem_filterMap]
  refine exists_congr fun link => and_congr_right fun _ => ?_
  simp only [Option.ite_none_right_eq_some, Option.some.injEq]
  exact ⟨fun h => ⟨h.1.2, h.2, h.1.1⟩, fun h => ⟨⟨h.2.2, h.1⟩, h.2.1⟩⟩

theorem lateLink?_cons_eq_none_iff {seen : List String} :
    g.lateLink? (v :: l) seen = none ↔
      (∀ p, g.Leads p v → p = v ∨ p ∈ seen) ∧ g.lateLink? l (v :: seen) = none := by
  have hhead : ((g.predecessors v).find? fun p => !(v :: seen).contains p) = none ↔
      ∀ p, g.Leads p v → p = v ∨ p ∈ seen := by
    rw [List.find?_eq_none]
    refine forall_congr' fun p => ?_
    rw [mem_predecessors, Bool.not_eq_true, Bool.not_eq_false', List.contains_iff_mem,
      List.mem_cons]
  rw [lateLink?, ← hhead]
  cases (g.predecessors v).find? fun p => !(v :: seen).contains p with
  | some p => simp
  | none => simp

/-- No link comes late if every node is listed after all nodes that lead to it, other than
itself. -/
theorem lateLink?_eq_none_iff {seen : List String} :
    g.lateLink? l seen = none ↔
      ∀ before v after, l = before ++ v :: after →
        ∀ p, g.Leads p v → p = v ∨ p ∈ before ∨ p ∈ seen := by
  induction l generalizing seen with
  | nil => simp [lateLink?]
  | cons x rest ih =>
    rw [lateLink?_cons_eq_none_iff, ih]
    constructor
    · rintro ⟨hfirst, hrest⟩ before v after hsplit p hp
      cases before with
      | nil =>
        obtain ⟨rfl, _⟩ := List.cons.inj hsplit
        exact (hfirst p hp).imp_right .inr
      | cons y before =>
        obtain ⟨rfl, htail⟩ := List.cons.inj hsplit
        rcases hrest before v after htail p hp with heq | hbefore | hseen
        · exact .inl heq
        · exact .inr (.inl (List.mem_cons_of_mem _ hbefore))
        · rcases List.mem_cons.mp hseen with rfl | hseen
          · exact .inr (.inl List.mem_cons_self)
          · exact .inr (.inr hseen)
    · intro hall
      refine ⟨fun p hp => by simpa using hall [] x rest rfl p hp, ?_⟩
      intro before v after hsplit p hp
      rcases hall (x :: before) v after (by rw [hsplit, List.cons_append]) p hp with
        heq | hbefore | hseen
      · exact .inl heq
      · rcases List.mem_cons.mp hbefore with rfl | hbefore
        · exact .inr (.inr List.mem_cons_self)
        · exact .inr (.inl hbefore)
      · exact .inr (.inr (List.mem_cons_of_mem _ hseen))

/-- Checked from its end, a list of all nodes has no late link exactly if it has the targets first,
apart from links of a node to itself. -/
theorem lateLink?_reverse_eq_none_iff (hnodup : l.Nodup)
    (hall : ∀ p q, g.Leads p q → p ∈ l ∧ q ∈ l) (hself : ∀ v, ¬ g.Leads v v) :
    g.lateLink? l.reverse [] = none ↔ g.TargetsFirst l := by
  rw [lateLink?_eq_none_iff]
  constructor
  · intro hcheck before v after hsplit w hvw
    have hw : w ∈ before ++ v :: after := hsplit ▸ (hall v w hvw).2
    rcases List.mem_append.mp hw with hbefore | hlater
    · exact hbefore
    · exfalso
      rcases List.mem_cons.mp hlater with rfl | hafter
      · exact hself w hvw
      · -- A target that is listed later would be checked before the node that leads to it.
        obtain ⟨mid, rest, rfl⟩ := List.append_of_mem hafter
        have hback : l.reverse = rest.reverse ++ w :: (mid.reverse ++ v :: before.reverse) := by
          simp [hsplit]
        have happart : v ∉ w :: rest := by
          have hn := hnodup
          rw [hsplit, List.nodup_append, List.nodup_cons] at hn
          exact fun hmem => hn.2.1.1 (List.mem_append_right _ hmem)
        rcases hcheck _ w _ hback v hvw with rfl | hrest | hnil
        · exact happart List.mem_cons_self
        · exact happart (List.mem_cons_of_mem _ (List.mem_reverse.mp hrest))
        · cases hnil
  · intro hfirst before v after hsplit p hp
    have hl : l = after.reverse ++ v :: before.reverse := by
      rw [← List.reverse_reverse l, hsplit]
      simp
    have hpl : p ∈ after.reverse ++ v :: before.reverse := hl ▸ (hall p v hp).1
    rcases List.mem_append.mp hpl with hafter | hlater
    · exfalso
      -- A node listed before its target would have that target before it as well.
      obtain ⟨front, mid, hfront⟩ := List.append_of_mem hafter
      have hsplit' : l = front ++ p :: (mid ++ v :: before.reverse) := by
        rw [hl, hfront]
        simp
      have hv := hfirst front p _ hsplit' v hp
      rw [hsplit', List.nodup_append] at hnodup
      exact hnodup.2.2 v hv v (by simp) rfl
    · rcases List.mem_cons.mp hlater with heq | hbefore
      · exact .inl heq
      · exact .inr (.inl (List.mem_reverse.mp hbefore))

/-! ## Orders -/

/-- The nodes have an order exactly if the survey left them with the targets first, and that is
the order. -/
theorem IsProper.order_eq_ok_iff (hg : g.IsProper) :
    g.order = .ok l ↔ l = g.survey.finished ∧ g.TargetsFirst l := by
  have hopened : ∀ v, v ∈ g.survey.opened ↔ v ∈ g.nodes := by
    intro v
    rw [hg.underway_survey.opened_iff v, hg.mem_finished_iff]
    simp
  have hall : ∀ p q, g.Leads p q → p ∈ g.survey.finished ∧ q ∈ g.survey.finished := by
    intro p q hpq
    rw [hg.mem_finished_iff, hg.mem_finished_iff]
    exact ⟨hg.source_mem hpq, hg.target_mem hpq⟩
  have hnodup := hg.underway_survey.finished_nodup
  unfold order
  dsimp only
  cases hfind : g.survey.opened.find? fun v => (g.successors v).contains v with
  | some v =>
    -- A link of a node to itself leaves no order.
    have hself : g.Leads v v := by simpa [Leads] using List.find?_some hfind
    simp only [reduceCtorEq, false_iff, not_and]
    rintro rfl hfirst
    obtain ⟨before, after, hsplit, hnew⟩ := List.eq_append_cons_of_mem (hall v v hself).1
    exact hnew (hfirst before v after hsplit v hself)
  | none =>
    have hself : ∀ v, ¬ g.Leads v v := by
      intro v hv
      have hnot := List.find?_eq_none.mp hfind v ((hopened v).mpr (hg.source_mem hv))
      exact hnot (by simpa [Leads] using hv)
    have hcheck := lateLink?_reverse_eq_none_iff hnodup hall hself
    have hfinished : g.survey.closed.map Prod.fst = g.survey.finished := rfl
    rw [hfinished]
    cases hlate : g.lateLink? g.survey.finished.reverse [] with
    | some v =>
      simp only [reduceCtorEq, false_iff, not_and]
      rintro rfl hfirst
      rw [hcheck.mpr hfirst] at hlate
      cases hlate
    | none =>
      have hfirst := hcheck.mp hlate
      constructor
      · intro hok
        cases hok
        exact ⟨rfl, hfirst⟩
      · rintro ⟨rfl, _⟩
        rfl

/-- The nodes have no order exactly if there is a cycle. -/
theorem IsProper.order_eq_error_iff (hg : g.IsProper) :
    (∃ v, g.order = .error v) ↔ g.Cyclic := by
  constructor
  · rintro ⟨v, herror⟩
    refine hg.cycles_ne_nil_iff.mp fun hnil => ?_
    have hok := hg.order_eq_ok_iff.mpr ⟨rfl, hg.underway_survey.targets_first hnil⟩
    rw [herror] at hok
    cases hok
  · intro hcyclic
    cases horder : g.order with
    | error v => exact ⟨v, rfl⟩
    | ok l =>
      obtain ⟨rfl, hfirst⟩ := hg.order_eq_ok_iff.mp horder
      exact absurd hcyclic
        (hfirst.not_cyclic fun p q hpq => hg.mem_finished_iff.mpr (hg.source_mem hpq))

/-! ## Circular defects -/

/-- The circular defects of a report are the cycles of the survey. -/
theorem circular_mem_defects_iff {t : LinkThresholds} {c : List String} :
    .circular c ∈ (g.report t).defects ↔ c ∈ g.cycles := by
  have hnodes : ∀ nodes : List NodeReport,
      .circular c ∉ nodes.flatMap (nodeDefects t g.nodes.length) := by
    intro nodes hmem
    rcases List.mem_flatMap.mp hmem with ⟨n, _, hdefect⟩
    unfold nodeDefects at hdefect
    split at hdefect <;> split at hdefect <;> simp at hdefect
  simp [report, hnodes, cycles]

theorem hasCycles_iff {t : LinkThresholds} :
    (g.report t).hasCycles = true ↔ g.cycles ≠ [] := by
  rw [LinkReport.hasCycles, List.any_eq_true]
  constructor
  · rintro ⟨d, hd, hcircular⟩ hnil
    cases d with
    | circular c =>
      rw [circular_mem_defects_iff, hnil] at hd
      cases hd
    | _ => cases hcircular
  · intro hsome
    obtain ⟨c, hc⟩ := List.exists_mem_of_ne_nil _ hsome
    exact ⟨.circular c, circular_mem_defects_iff.mpr hc, rfl⟩

theorem IsCycle.mem_nodes (hg : g.IsProper) {c : List String} (h : g.IsCycle c) :
    ∀ p ∈ c, p ∈ g.nodes := by
  rcases h with ⟨_, v, rest, rfl, hchain⟩
  intro p hp
  -- Every path of the closed walk but the last has one after it.
  obtain ⟨before, after, hsplit⟩ := List.append_of_mem hp
  rw [hsplit, List.append_assoc, List.cons_append] at hchain
  cases hafter : after ++ [v] with
  | nil => simp at hafter
  | cons q more =>
    rw [hafter] at hchain
    exact hg.source_mem (List.isChain_append_cons_cons.mp hchain).2.1

end LinkGraph

namespace Store

variable {locked : String → Bool}

theorem graph_isProper (s : Store locked) : s.graph.IsProper where
  nodup := s.nodup_paths
  source_mem h := (mem_paths_of_leads h).1
  target_mem h := (mem_paths_of_leads h).2

/-- The report of a store finds circular references, and its paths have no order, exactly if a chain
of references leads from some token back to itself.  Every cycle that is reported consists of
distinct tokens, each of which refers to the next one and the last to the first; and an order that
is given lists every token once, after all tokens that it refers to. -/
theorem cycles_found_alike (s : Store locked) (t : LinkThresholds) :
    ((s.linkReport t).hasCycles = true ↔ s.graph.Cyclic) ∧
      ((∃ v, s.graph.order = .error v) ↔ s.graph.Cyclic) ∧
      (∀ c, .circular c ∈ (s.linkReport t).defects →
        s.graph.IsCycle c ∧ ∀ p ∈ c, p ∈ s.paths) ∧
      ∀ l, s.graph.order = .ok l → l.Perm s.paths ∧ s.graph.TargetsFirst l := by
  have hg := s.graph_isProper
  refine ⟨LinkGraph.hasCycles_iff.trans hg.cycles_ne_nil_iff, hg.order_eq_error_iff, ?_, ?_⟩
  · intro c hc
    have hcycle := hg.underway_survey.cycles_closed c (LinkGraph.circular_mem_defects_iff.mp hc)
    exact ⟨hcycle, hcycle.mem_nodes hg⟩
  · intro l hl
    obtain ⟨rfl, hfirst⟩ := hg.order_eq_ok_iff.mp hl
    exact ⟨hg.finished_perm, hfirst⟩

/-- Two tokens that refer to each other, one of them also to a third, which names itself. -/
def twoLoops : OpenStore :=
  ⟨[{ path := "a", value := .text "\x7bb\x7d" },
    { path := "b", value := .text "\x7bc\x7d \x7ba\x7d" },
    { path := "c", value := .text "1px \x7bc\x7d" }], by decide⟩

theorem graph_twoLoops : twoLoops.graph = ⟨["a", "b", "c"],
    [⟨"a", "b", true⟩, ⟨"b", "c", true⟩, ⟨"b", "a", true⟩, ⟨"c", "c", true⟩]⟩ := by
  decide +kernel

theorem survey_twoLoops : twoLoops.graph.survey =
    ⟨["a", "b", "c"], [("c", 1), ("b", 2), ("a", 3)], [["c"], ["a", "b"]]⟩ := by
  rw [graph_twoLoops]
  simp [LinkGraph.survey, LinkGraph.explore, LinkGraph.successors, Survey.depth?, Survey.reach,
    Survey.leave, Survey.addCycle, Survey.cycleFrom, Survey.sameMembers, List.lookup_cons]

/-- A chain of two references beside a reference to its end. -/
def chainAndShortcut : OpenStore :=
  ⟨[{ path := "x", value := .text "\x7bz\x7d \x7by\x7d" },
    { path := "y", value := .text "z" },
    { path := "z", value := .color "#3B82F6" }], by decide⟩

/-- Both loops are found and leave no order; the chain is listed from its end. -/
theorem cycles_found_alike_loopsAndChain :
    (.circular ["c"] ∈ (twoLoops.linkReport {}).defects ∧ twoLoops.graph.IsCycle ["c"] ∧
      .circular ["a", "b"] ∈ (twoLoops.linkReport {}).defects ∧
      twoLoops.graph.IsCycle ["a", "b"] ∧ ∃ v, twoLoops.graph.order = .error v) ∧
    chainAndShortcut.graph.order = .ok ["z", "y", "x"] ∧
      chainAndShortcut.graph.TargetsFirst ["z", "y", "x"] ∧ ¬ chainAndShortcut.graph.Cyclic := by
  have hdefects : (twoLoops.linkReport {}).defects = [.circular ["c"], .circular ["a", "b"]] := by
    rw [linkReport, LinkGraph.report, survey_twoLoops, graph_twoLoops]
    decide +kernel
  have hself : .circular ["c"] ∈ (twoLoops.linkReport {}).defects := by simp [hdefects]
  have hpair : .circular ["a", "b"] ∈ (twoLoops.linkReport {}).defects := by simp [hdefects]
  have hchain : chainAndShortcut.graph =
      ⟨["x", "y", "z"], [⟨"x", "z", true⟩, ⟨"x", "y", true⟩, ⟨"y", "z", true⟩]⟩ := by
    decide +kernel
  have hsurvey : chainAndShortcut.graph.survey =
      ⟨["x", "z", "y"], [("z", 0), ("y", 1), ("x", 2)], []⟩ := by
    rw [hchain]
    simp [LinkGraph.survey, LinkGraph.explore, LinkGraph.successors, Survey.depth?, Survey.reach,
      Survey.leave, List.lookup_cons]
  have horder : chainAndShortcut.graph.order = .ok ["z", "y", "x"] := by
    rw [LinkGraph.order, hsurvey, hchain]
    decide
  obtain ⟨_, herror, hcycles, _⟩ := cycles_found_alike twoLoops {}
  obtain ⟨_, hnone, _, hlisted⟩ := cycles_found_alike chainAndShortcut {}
  refine ⟨⟨hself, (hcycles _ hself).1, hpair, (hcycles _ hpair).1, ?_⟩, horder,
    (hlisted _ horder).2, ?_⟩
  · exact herror.mpr (hcycles _ hself).1.cyclic
  · intro hcyclic
    rcases hnone.mpr hcyclic with ⟨v, hv⟩
    rw [horder] at hv
    cases hv

end Store

end DesignTokens
