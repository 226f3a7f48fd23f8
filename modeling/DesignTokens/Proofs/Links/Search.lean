import DesignTokens.Links.Survey
import DesignTokens.Proofs.Links.Cycles
import Mathlib.Data.List.Chain

/-!
# What the depth-first survey finds

While the search is under way, the trail is a chain of links, the nodes that it has left are off
the trail, and as long as it has found no cycle every node that it has left comes after all the
nodes to which its links lead.  The reason is that the search leaves a node only after it has looked
at all its links, and a link into the trail closes a cycle.

So a survey without cycles lists the nodes in an order that no chain of links can run against, and
the graph has no cycle; and every cycle of a survey is one of the graph.
-/

namespace DesignTokens

namespace Survey

variable {s : Survey} {v : String}

/-- The nodes that the search has left, in the order in which it left them. -/
def finished (s : Survey) : List String := s.closed.map Prod.fst

@[simp]
theorem finished_reach (s : Survey) (v : String) : (s.reach v).finished = s.finished := rfl

@[simp]
theorem opened_reach (s : Survey) (v : String) : (s.reach v).opened = s.opened ++ [v] := rfl

@[simp]
theorem finished_leave (s : Survey) (v : String) (depth : Nat) :
    (s.leave v depth).finished = s.finished ++ [v] := by
  simp [leave, finished]

@[simp]
theorem opened_leave (s : Survey) (v : String) (depth : Nat) :
    (s.leave v depth).opened = s.opened := rfl

theorem depth?_eq_none_iff : s.depth? v = none ↔ v ∉ s.finished := by
  unfold depth? finished
  rw [List.lookup_eq_none_iff, List.mem_map]
  constructor
  · intro hnone hmem
    rcases hmem with ⟨p, hp, rfl⟩
    simpa using hnone p hp
  · intro hnew p hp
    have hne : v ≠ p.1 := fun heq => hnew ⟨p, hp, heq.symm⟩
    simpa using hne

theorem mem_finished_of_depth? {d : Nat} (h : s.depth? v = some d) : v ∈ s.finished := by
  by_contra hnew
  rw [depth?_eq_none_iff.mpr hnew] at h
  cases h

/-! ## Adding a cycle -/

/-- A cycle is added, unless one with the same members has been found before. -/
theorem addCycle_cases (s : Survey) (c : List String) :
    (s.cycles ≠ [] ∧ s.addCycle c = s) ∨
      s.addCycle c = { s with cycles := s.cycles ++ [c] } := by
  unfold addCycle
  split
  · next hfound =>
    refine .inl ⟨fun hnil => ?_, rfl⟩
    simp [hnil] at hfound
  · exact .inr rfl

theorem cycles_addCycle_ne_nil (s : Survey) (c : List String) : (s.addCycle c).cycles ≠ [] := by
  rcases s.addCycle_cases c with ⟨hfound, hsame⟩ | hadded
  · rwa [hsame]
  · simp [hadded]

@[simp]
theorem finished_addCycle (s : Survey) (c : List String) :
    (s.addCycle c).finished = s.finished := by
  rcases s.addCycle_cases c with ⟨_, hsame⟩ | hadded
  · rw [hsame]
  · rw [hadded]
    rfl

@[simp]
theorem opened_addCycle (s : Survey) (c : List String) : (s.addCycle c).opened = s.opened := by
  rcases s.addCycle_cases c with ⟨_, hsame⟩ | hadded
  · rw [hsame]
  · rw [hadded]

/-- What a search only adds to. -/
structure Grows (s s' : Survey) : Prop where
  finished : s.finished <+: s'.finished
  cycles : s.cycles <+: s'.cycles

theorem Grows.refl (s : Survey) : s.Grows s := ⟨List.prefix_refl _, List.prefix_refl _⟩

theorem Grows.trans {s s' s'' : Survey} (h : s.Grows s') (h' : s'.Grows s'') : s.Grows s'' :=
  ⟨h.finished.trans h'.finished, h.cycles.trans h'.cycles⟩

theorem grows_addCycle (s : Survey) (c : List String) : s.Grows (s.addCycle c) := by
  rcases s.addCycle_cases c with ⟨_, hsame⟩ | hadded
  · rw [hsame]
    exact .refl s
  · rw [hadded]
    exact ⟨List.prefix_refl _, List.prefix_append _ _⟩

theorem Grows.cycles_ne_nil {s s' : Survey} (h : s.Grows s') (hs : s.cycles ≠ []) :
    s'.cycles ≠ [] := by
  intro hnil
  have hbegins := h.cycles
  rw [hnil, List.prefix_nil] at hbegins
  exact hs hbegins

end Survey

namespace LinkGraph

variable {g : LinkGraph} {p q v w : String} {trail vs l : List String} {s s' : Survey}

/-! ## Graphs, cycles and orders -/

/-- No node is listed twice, and resolved links lead from nodes to nodes. -/
structure IsProper (g : LinkGraph) : Prop where
  nodup : g.nodes.Nodup
  source_mem : ∀ {p q}, g.Leads p q → p ∈ g.nodes
  target_mem : ∀ {p q}, g.Leads p q → q ∈ g.nodes

/-- Distinct paths, each of which leads to the next one and the last to the first. -/
def IsCycle (g : LinkGraph) (c : List String) : Prop :=
  c.Nodup ∧ ∃ v rest, c = v :: rest ∧ List.IsChain g.Leads (c ++ [v])

/-- Every path of a list comes after all paths to which its links lead. -/
def TargetsFirst (g : LinkGraph) (l : List String) : Prop :=
  ∀ before v after, l = before ++ v :: after → ∀ w, g.Leads v w → w ∈ before

theorem IsCycle.cyclic {c : List String} (h : g.IsCycle c) : g.Cyclic := by
  rcases h with ⟨_, v, rest, rfl, hchain⟩
  refine ⟨v, ?_⟩
  -- The first link of the walk leads on, and the rest of the walk comes back.
  rw [List.cons_append] at hchain
  cases hrest : rest ++ [v] with
  | nil => simp at hrest
  | cons w more =>
    rw [hrest, List.isChain_cons_cons] at hchain
    have hback : Relation.ReflTransGen g.Leads w v := by
      have hlast : (w :: more).getLast (List.cons_ne_nil _ _) = v := by
        simp [← hrest]
      exact List.relationReflTransGen_of_exists_isChain_cons more hchain.2 hlast
    exact .trans_left (.single hchain.1) hback

theorem TargetsFirst.nil (g : LinkGraph) : g.TargetsFirst [] := by
  intro before v after hsplit
  simp at hsplit

theorem TargetsFirst.concat (h : g.TargetsFirst l) (hv : ∀ w, g.Leads v w → w ∈ l) :
    g.TargetsFirst (l ++ [v]) := by
  intro before u after hsplit w huw
  rcases List.eq_nil_or_concat after with rfl | ⟨rest, x, rfl⟩
  · obtain ⟨rfl, hlast⟩ := List.append_inj' hsplit rfl
    cases hlast
    exact hv w huw
  · -- The last path stays where it is, and the others are a list as before.
    have hsplit' : l ++ [v] = (before ++ u :: rest) ++ [x] := by simpa using hsplit
    obtain ⟨hfront, _⟩ := List.append_inj' hsplit' rfl
    exact h before u rest hfront w huw

/-- A list of all nodes with the targets first leaves no room for a cycle. -/
theorem TargetsFirst.not_cyclic (h : g.TargetsFirst l) (hall : ∀ p q, g.Leads p q → p ∈ l) :
    ¬ g.Cyclic := by
  refine not_cyclic_of_rank l.idxOf fun link hlink hresolved => ?_
  have hleads : g.Leads link.source link.target :=
    leads_iff.mpr ⟨link, hlink, hresolved, rfl, rfl⟩
  obtain ⟨before, after, hsplit, hfirst⟩ := List.eq_append_cons_of_mem (hall _ _ hleads)
  have htarget := h before _ after hsplit _ hleads
  have hsource : l.idxOf link.source = before.length := by
    rw [hsplit, List.idxOf_append_of_notMem hfirst, List.idxOf_cons_self, Nat.add_zero]
  rw [hsource, hsplit, List.idxOf_append_of_mem htarget]
  exact List.idxOf_lt_length_iff.mpr htarget

/-! ## The search under way -/

/-- What holds of a search while it is at the head of its trail. -/
structure Underway (g : LinkGraph) (trail : List String) (s : Survey) : Prop where
  trail_mem : ∀ v ∈ trail, v ∈ g.nodes
  trail_nodup : trail.Nodup
  trail_chain : trail.IsChain fun a b => g.Leads b a
  finished_mem : ∀ v ∈ s.finished, v ∈ g.nodes
  finished_nodup : s.finished.Nodup
  apart : ∀ v ∈ trail, v ∉ s.finished
  opened_iff : ∀ v, v ∈ s.opened ↔ v ∈ trail ∨ v ∈ s.finished
  cycles_closed : ∀ c ∈ s.cycles, g.IsCycle c
  targets_first : s.cycles = [] → g.TargetsFirst s.finished

/-- A link from the head of the trail back into it closes a cycle. -/
theorem Underway.isCycle_cycleFrom (h : g.Underway trail s) (hv : v ∈ trail)
    (hhead : ∀ u ∈ trail.head?, g.Leads u v) : g.IsCycle (Survey.cycleFrom trail v) := by
  obtain ⟨before, after, hsplit, hfirst⟩ := List.eq_append_cons_of_mem hv
  have hcut : trail.takeWhile (fun w => w != v) = before := by
    rw [hsplit, List.takeWhile_append_of_pos]
    · simp
    · intro w hw
      have hne : w ≠ v := fun heq => hfirst (heq ▸ hw)
      simpa using hne
  have hcycle : Survey.cycleFrom trail v = v :: before.reverse := by
    rw [Survey.cycleFrom, hcut]
  rw [hcycle]
  refine ⟨?_, v, before.reverse, rfl, ?_⟩
  · have hnodup := h.trail_nodup
    rw [hsplit, List.nodup_append] at hnodup
    exact List.nodup_cons.mpr ⟨by simpa using hfirst, List.nodup_reverse.mpr hnodup.1⟩
  · -- Read backwards, the walk is the part of the trail up to the node, with the node before it.
    have hwalk : (v :: (before ++ [v])).IsChain fun a b => g.Leads b a := by
      have hpart : before ++ [v] <+: trail := ⟨after, by simp [hsplit]⟩
      refine List.isChain_cons.mpr ⟨fun u hu => hhead u ?_, h.trail_chain.prefix hpart⟩
      rw [hsplit]
      cases before with
      | nil => simpa using hu
      | cons x xs => simpa using hu
    have hback := List.isChain_reverse.mpr hwalk
    simpa using hback

theorem Underway.addCycle (h : g.Underway trail s) {c : List String} (hc : g.IsCycle c) :
    g.Underway trail (s.addCycle c) where
  trail_mem := h.trail_mem
  trail_nodup := h.trail_nodup
  trail_chain := h.trail_chain
  finished_mem := by simpa using h.finished_mem
  finished_nodup := by simpa using h.finished_nodup
  apart := by simpa using h.apart
  opened_iff := by simpa using h.opened_iff
  cycles_closed := by
    rcases s.addCycle_cases c with ⟨_, hsame⟩ | hadded
    · rw [hsame]
      exact h.cycles_closed
    · intro d hd
      rw [hadded] at hd
      rcases List.mem_append.mp hd with hd | hd
      · exact h.cycles_closed d hd
      · rwa [List.mem_singleton.mp hd]
  targets_first hnil := absurd hnil (s.cycles_addCycle_ne_nil c)

/-- The search goes on to a node that it has not reached yet. -/
theorem Underway.reach (h : g.Underway trail s) (hv : v ∈ g.nodes) (hnew : v ∉ trail)
    (hopen : v ∉ s.finished) (hhead : ∀ u ∈ trail.head?, g.Leads u v) :
    g.Underway (v :: trail) (s.reach v) where
  trail_mem := List.forall_mem_cons.mpr ⟨hv, h.trail_mem⟩
  trail_nodup := List.nodup_cons.mpr ⟨hnew, h.trail_nodup⟩
  trail_chain := List.isChain_cons.mpr ⟨hhead, h.trail_chain⟩
  finished_mem := h.finished_mem
  finished_nodup := h.finished_nodup
  apart := List.forall_mem_cons.mpr ⟨hopen, h.apart⟩
  opened_iff w := by
    rw [Survey.opened_reach, List.mem_append, List.mem_singleton, h.opened_iff,
      Survey.finished_reach, List.mem_cons]
    constructor
    · rintro ((hw | hw) | hw)
      · exact .inl (.inr hw)
      · exact .inr hw
      · exact .inl (.inl hw)
    · rintro ((hw | hw) | hw)
      · exact .inr hw
      · exact .inl (.inl hw)
      · exact .inl (.inr hw)
  cycles_closed := h.cycles_closed
  targets_first := h.targets_first

/-- The search leaves the head of the trail once all its links have been looked at. -/
theorem Underway.leave (h : g.Underway (v :: trail) s)
    (hlinks : ∀ w, g.Leads v w → w ∈ s.finished ∨ w ∈ v :: trail ∧ s.cycles ≠ []) (depth : Nat) :
    g.Underway trail (s.leave v depth) where
  trail_mem w hw := h.trail_mem w (List.mem_cons_of_mem _ hw)
  trail_nodup := (List.nodup_cons.mp h.trail_nodup).2
  trail_chain := (List.isChain_cons.mp h.trail_chain).2
  finished_mem := by
    rw [Survey.finished_leave, List.forall_mem_append, List.forall_mem_singleton]
    exact ⟨h.finished_mem, h.trail_mem v List.mem_cons_self⟩
  finished_nodup := by
    rw [Survey.finished_leave, ← List.concat_eq_append]
    exact h.finished_nodup.concat (h.apart v List.mem_cons_self)
  apart w hw := by
    rw [Survey.finished_leave, List.mem_append, List.mem_singleton]
    rintro (hleft | rfl)
    · exact h.apart w (List.mem_cons_of_mem _ hw) hleft
    · exact (List.nodup_cons.mp h.trail_nodup).1 hw
  opened_iff w := by
    rw [Survey.opened_leave, h.opened_iff, Survey.finished_leave, List.mem_append,
      List.mem_singleton, List.mem_cons]
    constructor
    · rintro ((hw | hw) | hw)
      · exact .inr (.inr hw)
      · exact .inl hw
      · exact .inr (.inl hw)
    · rintro (hw | hw | hw)
      · exact .inl (.inr hw)
      · exact .inr hw
      · exact .inl (.inl hw)
  cycles_closed := h.cycles_closed
  targets_first hnil := by
    rw [Survey.finished_leave]
    refine (h.targets_first hnil).concat fun w hw => ?_
    -- Without cycles no link leads back into the trail.
    exact (hlinks w hw).resolve_right fun hback => hback.2 hnil

/-- The search below the head of the trail: it leaves every node it is sent to, except that a link
back into the trail has closed a cycle. -/
theorem Underway.explore (hg : g.IsProper) (h : g.Underway trail s)
    (hmem : ∀ v ∈ vs, v ∈ g.nodes) (hhead : ∀ u ∈ trail.head?, ∀ v ∈ vs, g.Leads u v)
    (depth : Nat) :
    g.Underway trail (g.explore trail vs depth s).2 ∧ s.Grows (g.explore trail vs depth s).2 ∧
      ∀ v ∈ vs, v ∈ (g.explore trail vs depth s).2.finished ∨
        v ∈ trail ∧ (g.explore trail vs depth s).2.cycles ≠ [] := by
  fun_induction LinkGraph.explore g trail vs depth s with
  | case1 trail depth s => exact ⟨h, .refl s, fun v hv => absurd hv List.not_mem_nil⟩
  | case2 trail v rest depth s d hdepth ih =>
    obtain ⟨hstill, hgrows, hrest⟩ := ih h (fun w hw => hmem w (List.mem_cons_of_mem _ hw))
      fun u hu w hw => hhead u hu w (List.mem_cons_of_mem _ hw)
    have hv := hgrows.finished.subset (Survey.mem_finished_of_depth? hdepth)
    exact ⟨hstill, hgrows, List.forall_mem_cons.mpr ⟨.inl hv, hrest⟩⟩
  | case3 trail v rest depth s hdepth htrail ih =>
    have hcycle := h.isCycle_cycleFrom htrail fun u hu => hhead u hu v List.mem_cons_self
    obtain ⟨hstill, hgrows, hrest⟩ := ih (h.addCycle hcycle)
      (fun w hw => hmem w (List.mem_cons_of_mem _ hw))
      fun u hu w hw => hhead u hu w (List.mem_cons_of_mem _ hw)
    have hsome := hgrows.cycles_ne_nil (s.cycles_addCycle_ne_nil _)
    exact ⟨hstill, (s.grows_addCycle _).trans hgrows,
      List.forall_mem_cons.mpr ⟨.inr ⟨htrail, hsome⟩, hrest⟩⟩
  | case4 trail v rest depth s hdepth htrail hnode below ihbelow ihrest =>
    have hreach := h.reach hnode htrail (Survey.depth?_eq_none_iff.mp hdepth)
      fun u hu => hhead u hu v List.mem_cons_self
    obtain ⟨hunder, hgrowsBelow, hsuccessors⟩ := ihbelow hreach
      (fun w hw => hg.target_mem hw) (by simp [LinkGraph.Leads])
    have hleave := hunder.leave (fun w hw => hsuccessors w hw) below.1
    obtain ⟨hstill, hgrows, hrest⟩ := ihrest hleave
      (fun w hw => hmem w (List.mem_cons_of_mem _ hw))
      fun u hu w hw => hhead u hu w (List.mem_cons_of_mem _ hw)
    -- Between reaching a node and leaving it the survey only grows.
    have hwhole : s.Grows (below.2.leave v below.1) := by
      refine ⟨?_, hgrowsBelow.cycles⟩
      rw [Survey.finished_leave]
      exact hgrowsBelow.finished.trans (List.prefix_append _ _)
    have hv : v ∈ (below.2.leave v below.1).finished := by simp
    exact ⟨hstill, hwhole.trans hgrows,
      List.forall_mem_cons.mpr ⟨.inl (hgrows.finished.subset hv), hrest⟩⟩
  | case5 trail v rest depth s hdepth htrail hnode ih =>
    exact absurd (hmem v List.mem_cons_self) hnode

/-- What holds of every search below a trail: it is enough to show it where no link is left to look
at, and to carry it over the next link, be that to a node that the search has left, to one of the
trail or to a new one.  At each of these points the search is under way. -/
theorem Underway.explore_induction (hg : g.IsProper)
    {motive : List String → List String → Nat → Survey → Nat × Survey → Prop}
    (nil : ∀ trail depth s, g.Underway trail s → motive trail [] depth s (depth, s))
    (left : ∀ trail v rest depth s d r, g.Underway trail s → s.depth? v = some d →
      motive trail rest (max depth (d + 1)) s r → motive trail (v :: rest) depth s r)
    (back : ∀ trail v rest depth s r, g.Underway trail s → g.Underway trail r.2 → v ∈ trail →
      (∀ u ∈ trail.head?, g.Leads u v) → (s.addCycle (Survey.cycleFrom trail v)).Grows r.2 →
      motive trail rest (max depth 1) (s.addCycle (Survey.cycleFrom trail v)) r →
      motive trail (v :: rest) depth s r)
    (new : ∀ trail v rest depth s below r, g.Underway trail s → v ∉ trail → v ∉ s.finished →
      g.Underway (v :: trail) (s.reach v) → g.Underway (v :: trail) below.2 →
      (∀ w, g.Leads v w → w ∈ below.2.finished ∨ w ∈ v :: trail) →
      motive (v :: trail) (g.successors v) 0 (s.reach v) below →
      motive trail rest (max depth (below.1 + 1)) (below.2.leave v below.1) r →
      motive trail (v :: rest) depth s r)
    (h : g.Underway trail s) (hmem : ∀ v ∈ vs, v ∈ g.nodes)
    (hhead : ∀ u ∈ trail.head?, ∀ v ∈ vs, g.Leads u v) (depth : Nat) :
    motive trail vs depth s (g.explore trail vs depth s) := by
  fun_induction LinkGraph.explore g trail vs depth s with
  | case1 trail depth s => exact nil trail depth s h
  | case2 trail v rest depth s d hdepth ih =>
    have hmem' : ∀ w ∈ rest, w ∈ g.nodes := fun w hw => hmem w (List.mem_cons_of_mem _ hw)
    have hhead' : ∀ u ∈ trail.head?, ∀ w ∈ rest, g.Leads u w :=
      fun u hu w hw => hhead u hu w (List.mem_cons_of_mem _ hw)
    exact left _ _ _ _ _ _ _ h hdepth (ih h hmem' hhead')
  | case3 trail v rest depth s hdepth htrail ih =>
    have hmem' : ∀ w ∈ rest, w ∈ g.nodes := fun w hw => hmem w (List.mem_cons_of_mem _ hw)
    have hhead' : ∀ u ∈ trail.head?, ∀ w ∈ rest, g.Leads u w :=
      fun u hu w hw => hhead u hu w (List.mem_cons_of_mem _ hw)
    have hlink : ∀ u ∈ trail.head?, g.Leads u v := fun u hu => hhead u hu v List.mem_cons_self
    have hcycle := h.addCycle (h.isCycle_cycleFrom htrail hlink)
    obtain ⟨hstill, hgrows, _⟩ := hcycle.explore hg hmem' hhead' (max depth 1)
    exact back _ _ _ _ _ _ h hstill htrail hlink hgrows (ih hcycle hmem' hhead')
  | case4 trail v rest depth s hdepth htrail hnode below ihbelow ihrest =>
    have hmem' : ∀ w ∈ rest, w ∈ g.nodes := fun w hw => hmem w (List.mem_cons_of_mem _ hw)
    have hhead' : ∀ u ∈ trail.head?, ∀ w ∈ rest, g.Leads u w :=
      fun u hu w hw => hhead u hu w (List.mem_cons_of_mem _ hw)
    have hopen := Survey.depth?_eq_none_iff.mp hdepth
    have hreach := h.reach hnode htrail hopen fun u hu => hhead u hu v List.mem_cons_self
    have hsucc : ∀ w ∈ g.successors v, w ∈ g.nodes := fun w hw => hg.target_mem hw
    have hsuccHead : ∀ u ∈ (v :: trail).head?, ∀ w ∈ g.successors v, g.Leads u w := by
      simp [LinkGraph.Leads]
    obtain ⟨hunder, _, hlinks⟩ := hreach.explore hg hsucc hsuccHead 0
    have hleave := hunder.leave hlinks below.1
    exact new _ _ _ _ _ below _ h htrail hopen hreach hunder
      (fun w hw => (hlinks w hw).imp_right And.left) (ihbelow hreach hsucc hsuccHead)
      (ihrest hleave hmem' hhead')
  | case5 trail v rest depth s hdepth htrail hnode ih =>
    exact absurd (hmem v List.mem_cons_self) hnode

/-! ## The whole survey -/

theorem underway_start (g : LinkGraph) : g.Underway [] {} where
  trail_mem := by simp
  trail_nodup := List.nodup_nil
  trail_chain := .nil
  finished_mem := by simp [Survey.finished]
  finished_nodup := List.nodup_nil
  apart := by simp
  opened_iff := by simp [Survey.finished]
  cycles_closed := by simp
  targets_first _ := .nil g

theorem IsProper.underway_survey (hg : g.IsProper) : g.Underway [] g.survey :=
  ((underway_start g).explore hg (fun _ hv => hv) (by simp) 0).1

/-- In the end the search has left every node, each once. -/
theorem IsProper.finished_perm (hg : g.IsProper) : g.survey.finished.Perm g.nodes := by
  obtain ⟨hend, _, hleft⟩ := (underway_start g).explore hg (fun _ hv => hv) (by simp) 0
  refine (List.perm_ext_iff_of_nodup hend.finished_nodup hg.nodup).mpr fun v => ?_
  refine ⟨hend.finished_mem v, fun hv => ?_⟩
  exact (hleft v hv).resolve_right fun htrail => absurd htrail.1 List.not_mem_nil

theorem IsProper.mem_finished_iff (hg : g.IsProper) : v ∈ g.survey.finished ↔ v ∈ g.nodes :=
  hg.finished_perm.mem_iff

/-- The survey finds a cycle exactly if there is one. -/
theorem IsProper.cycles_ne_nil_iff (hg : g.IsProper) : g.cycles ≠ [] ↔ g.Cyclic := by
  constructor
  · intro hsome
    obtain ⟨c, hc⟩ := List.exists_mem_of_ne_nil _ hsome
    exact (hg.underway_survey.cycles_closed c hc).cyclic
  · intro hcyclic hnil
    have hfirst := hg.underway_survey.targets_first hnil
    refine hfirst.not_cyclic (fun p q hpq => ?_) hcyclic
    exact hg.mem_finished_iff.mpr (hg.source_mem hpq)

end LinkGraph

end DesignTokens
