import DesignTokens.Proofs.Links.Order
import Mathlib.Order.WellFounded

/-!
# Which nodes the cycles of a survey name

The span of a node is made of the nodes that the search reaches between reaching it and leaving it.
Spans are nested: of two that have a node in common, one holds the other.  A link back into the
trail leads from a node to one whose span holds it, and the cycle that it closes names the nodes in
between.  So a node is named exactly if a link leads from within its span to a node around it.

A node on a cycle need not be named, because all links back to it may lead through nodes that the
search left before.  But the first node of its component that the search reaches spans the whole
component, and is named.
-/

namespace DesignTokens

/-! ## Places in a list -/

section

variable {α : Type} [DecidableEq α] {l₁ l₂ : List α} {a b v : α}

/-- A new entry leaves the order of the others as it is. -/
theorem idxOf_le_insert_iff (hv : v ∉ l₁ ++ l₂) (ha : a ∈ l₁ ++ l₂) (hb : b ∈ l₁ ++ l₂) :
    (l₁ ++ v :: l₂).idxOf a ≤ (l₁ ++ v :: l₂).idxOf b ↔
      (l₁ ++ l₂).idxOf a ≤ (l₁ ++ l₂).idxOf b := by
  have hne : ∀ x ∈ l₁ ++ l₂, v ≠ x := fun x hx heq => hv (heq ▸ hx)
  have hplace : ∀ x ∈ l₁ ++ l₂, (l₁ ++ v :: l₂).idxOf x =
      if x ∈ l₁ then (l₁ ++ l₂).idxOf x else (l₁ ++ l₂).idxOf x + 1 := by
    intro x hx
    split
    · next h => rw [List.idxOf_append_of_mem h, List.idxOf_append_of_mem h]
    · next h =>
      rw [List.idxOf_append_of_notMem h, List.idxOf_append_of_notMem h,
        List.idxOf_cons_ne _ (hne x hx), Nat.add_assoc]
  have hfirst : ∀ x ∈ l₁, (l₁ ++ l₂).idxOf x < l₁.length := by
    intro x hx
    rw [List.idxOf_append_of_mem hx]
    exact List.idxOf_lt_length_of_mem hx
  have hlast : ∀ x ∉ l₁, l₁.length ≤ (l₁ ++ l₂).idxOf x := by
    intro x hx
    rw [List.idxOf_append_of_notMem hx]
    exact Nat.le_add_right _ _
  rw [hplace a ha, hplace b hb]
  by_cases ha₁ : a ∈ l₁
  · by_cases hb₁ : b ∈ l₁
    · simp [ha₁, hb₁]
    · have hahead := hfirst a ha₁
      have hbehind := hlast b hb₁
      simp only [ha₁, hb₁, if_true, if_false]
      omega
  · by_cases hb₁ : b ∈ l₁
    · have hahead := hfirst b hb₁
      have hbehind := hlast a ha₁
      simp only [ha₁, hb₁, if_true, if_false]
      omega
    · simp [ha₁, hb₁]

/-- The part of a list before an entry. -/
theorem mem_takeWhile_ne_iff {l : List α} {x w : α} :
    x ∈ l.takeWhile (fun y => y != w) ↔ x ∈ l ∧ l.idxOf x < l.idxOf w := by
  induction l with
  | nil => simp
  | cons y l ih =>
    by_cases hyw : y = w
    · subst hyw
      simp
    · by_cases hyx : y = x
      · subst hyx
        simp [hyw, List.idxOf_cons_ne]
      · simp [hyw, hyx, Ne.symm hyx, List.idxOf_cons_ne, ih]

end

namespace Survey

variable {s : Survey} {trail : List String} {a b c u v w x : String}

/-! ## Spans -/

/-- The search reached `u` no earlier than `v` and left it no later: it is `v`, or the search came
to it by way of `v`. -/
def Spans (s : Survey) (v u : String) : Prop :=
  s.opened.idxOf v ≤ s.opened.idxOf u ∧ s.finished.idxOf u ≤ s.finished.idxOf v

instance (s : Survey) (v u : String) : Decidable (s.Spans v u) :=
  inferInstanceAs (Decidable (_ ∧ _))

/-- The nodes in the order in which the search leaves them, as far as it has reached them: those of
the trail are still to be left, the latest first. -/
def leaving (s : Survey) (trail : List String) : List String := s.finished ++ trail

/-- The same while the search is at the head of a trail. -/
def SpansAt (s : Survey) (trail : List String) (v u : String) : Prop :=
  s.opened.idxOf v ≤ s.opened.idxOf u ∧
    (s.leaving trail).idxOf u ≤ (s.leaving trail).idxOf v

theorem spansAt_nil : s.SpansAt [] v u ↔ s.Spans v u := by simp [SpansAt, Spans, leaving]

theorem SpansAt.refl (s : Survey) (trail : List String) (v : String) : s.SpansAt trail v v :=
  ⟨Nat.le_refl _, Nat.le_refl _⟩

theorem SpansAt.trans (h : s.SpansAt trail a b) (h' : s.SpansAt trail b u) : s.SpansAt trail a u :=
  ⟨Nat.le_trans h.1 h'.1, Nat.le_trans h'.2 h.2⟩

theorem SpansAt.mem_opened (h : s.SpansAt trail v u) (hu : u ∈ s.opened) : v ∈ s.opened :=
  List.idxOf_lt_length_iff.mp (Nat.lt_of_le_of_lt h.1 (List.idxOf_lt_length_of_mem hu))

/-! ## The members of a cycle -/

theorem mem_cycleFrom_iff (hw : w ∈ trail) :
    x ∈ cycleFrom trail w ↔ x ∈ trail ∧ trail.idxOf x ≤ trail.idxOf w := by
  rw [cycleFrom, List.mem_cons, List.mem_reverse, mem_takeWhile_ne_iff]
  constructor
  · rintro (rfl | ⟨hx, hlt⟩)
    · exact ⟨hw, Nat.le_refl _⟩
    · exact ⟨hx, hlt.le⟩
  · rintro ⟨hx, hle⟩
    rcases hle.eq_or_lt with heq | hlt
    · exact .inl ((List.idxOf_inj hx).mp heq)
    · exact .inr ⟨hx, hlt⟩

theorem mem_cycles_addCycle {c d : List String} (h : d ∈ (s.addCycle c).cycles) :
    d ∈ s.cycles ∨ d = c := by
  rcases s.addCycle_cases c with ⟨_, hsame⟩ | hadded
  · rw [hsame] at h
    exact .inl h
  · rw [hadded] at h
    simpa using h

/-- After a cycle has been added there is one that has all its members. -/
theorem exists_mem_cycles_addCycle (s : Survey) (c : List String) :
    ∃ d ∈ (s.addCycle c).cycles, ∀ x ∈ c, x ∈ d := by
  unfold addCycle
  split
  · next hfound =>
    obtain ⟨d, hd, hsame⟩ := List.any_eq_true.mp hfound
    simp only [sameMembers, Bool.and_eq_true, List.all_eq_true, List.contains_iff_mem] at hsame
    exact ⟨d, hd, hsame.1⟩
  · exact ⟨c, by simp, fun x hx => hx⟩

end Survey

namespace LinkGraph

open Survey

variable {g : LinkGraph} {trail vs : List String} {s : Survey} {a b v u w x : String}

/-! ## Spans during the search -/

/-- The nodes that have been reached are those that are left or still to be left. -/
theorem Underway.mem_opened_iff (h : g.Underway trail s) :
    v ∈ s.opened ↔ v ∈ s.leaving trail := by
  rw [h.opened_iff, leaving, List.mem_append, or_comm]

/-- Reaching a node changes nothing between those reached before. -/
theorem Underway.spansAt_reach_iff (h : g.Underway trail s) (hv : v ∉ s.opened)
    (ha : a ∈ s.opened) (hb : b ∈ s.opened) :
    (s.reach v).SpansAt (v :: trail) a b ↔ s.SpansAt trail a b := by
  rw [h.mem_opened_iff] at hv
  unfold SpansAt
  rw [opened_reach, List.idxOf_append_of_mem ha, List.idxOf_append_of_mem hb]
  exact and_congr_right fun _ =>
    idxOf_le_insert_iff hv (h.mem_opened_iff.mp hb) (h.mem_opened_iff.mp ha)

/-- What spans a node that was reached before was reached before as well. -/
theorem mem_opened_of_spansAt_reach (hu : u ∈ s.opened)
    (h : (s.reach v).SpansAt (v :: trail) a u) : a ∈ s.opened := by
  have hplace := h.1
  rw [opened_reach, List.idxOf_append_of_mem hu] at hplace
  by_contra ha
  rw [List.idxOf_append_of_notMem ha] at hplace
  have hreached := List.idxOf_lt_length_of_mem hu
  omega

theorem Underway.mem_opened_of_mem_trail (h : g.Underway trail s) (ha : a ∈ trail) :
    a ∈ s.opened := (h.opened_iff a).mpr (.inl ha)

/-- The nodes of the trail are left in their order, after those that are left already. -/
theorem Underway.idxOf_leaving (h : g.Underway trail s) (ha : a ∈ trail) :
    (s.leaving trail).idxOf a = s.finished.length + trail.idxOf a := by
  rw [leaving, List.idxOf_append_of_notMem (h.apart a ha), Nat.add_comm]

/-- A node of the trail spans those that come before it in the trail. -/
theorem Underway.spansAt_of_mem_trail (h : g.Underway trail s)
    (horder : trail.Pairwise fun a b => s.opened.idxOf b < s.opened.idxOf a) (ha : a ∈ trail)
    (hb : b ∈ trail) (hle : trail.idxOf b ≤ trail.idxOf a) : s.SpansAt trail a b := by
  refine ⟨?_, ?_⟩
  · rcases hle.eq_or_lt with heq | hlt
    · rw [(List.idxOf_inj hb).mp heq]
    · have hpair := List.pairwise_iff_getElem.mp horder (trail.idxOf b) (trail.idxOf a)
        (List.idxOf_lt_length_of_mem hb) (List.idxOf_lt_length_of_mem ha) hlt
      rw [List.getElem_idxOf, List.getElem_idxOf] at hpair
      exact hpair.le
  · rw [h.idxOf_leaving ha, h.idxOf_leaving hb]
    exact Nat.add_le_add_left hle _

/-- What spans the head of the trail is on the trail. -/
theorem Underway.mem_trail_of_spansAt (h : g.Underway (u :: trail) s)
    (hspan : s.SpansAt (u :: trail) v u) : v ∈ u :: trail := by
  have hu : u ∈ s.opened := (h.opened_iff u).mpr (.inl List.mem_cons_self)
  rcases (h.opened_iff v).mp (hspan.mem_opened hu) with htrail | hleft
  · exact htrail
  · have hle := hspan.2
    rw [h.idxOf_leaving List.mem_cons_self, leaving, List.idxOf_append_of_mem hleft] at hle
    have hplace := List.idxOf_lt_length_of_mem hleft
    omega

/-- What a search under way knows of spans. -/
structure Nested (g : LinkGraph) (trail : List String) (s : Survey) : Prop where
  trail_order : trail.Pairwise fun a b => s.opened.idxOf b < s.opened.idxOf a
  -- Of two nodes that span a third one, the first to be reached spans the other.
  laminar : ∀ {a b u}, u ∈ s.opened → s.SpansAt trail a u → s.SpansAt trail b u →
    s.opened.idxOf a ≤ s.opened.idxOf b → s.SpansAt trail a b
  -- A link leads to a node that was left before, or to one that spans its source.
  links : ∀ u ∈ s.finished, ∀ w, g.Leads u w → w ∈ s.opened ∧
    ((s.leaving trail).idxOf u ≤ (s.leaving trail).idxOf w →
      s.opened.idxOf w ≤ s.opened.idxOf u)
  named : ∀ c ∈ s.cycles, ∀ v ∈ c, ∃ u ∈ s.opened, ∃ w, g.Leads u w ∧
    s.SpansAt trail v u ∧ s.SpansAt trail w v
  closing : ∀ u ∈ s.finished, ∀ v w, g.Leads u w → s.SpansAt trail v u → s.SpansAt trail w v →
    ∃ c ∈ s.cycles, v ∈ c

namespace Nested

theorem start (g : LinkGraph) : g.Nested [] {} where
  trail_order := .nil
  laminar hu := absurd hu List.not_mem_nil
  links _ hu := absurd hu List.not_mem_nil
  named _ hc := absurd hc List.not_mem_nil
  closing _ hu := absurd hu List.not_mem_nil

/-- A cycle that a link back into the trail closes is named by spans. -/
theorem addCycle (hn : g.Nested trail s) (h : g.Underway trail s) (hw : w ∈ trail)
    (hhead : ∀ u ∈ trail.head?, g.Leads u w) : g.Nested trail (s.addCycle (cycleFrom trail w)) := by
  have hspans : ∀ {a b}, (s.addCycle (cycleFrom trail w)).SpansAt trail a b ↔
      s.SpansAt trail a b := by
    simp [SpansAt, leaving]
  refine ⟨?_, ?_, ?_, ?_, ?_⟩
  · simpa using hn.trail_order
  · intro a b u hu hau hbu hle
    rw [opened_addCycle] at hu hle
    exact hspans.mpr (hn.laminar hu (hspans.mp hau) (hspans.mp hbu) hle)
  · simpa only [leaving, opened_addCycle, finished_addCycle] using hn.links
  · intro c hc v hv
    simp only [hspans, opened_addCycle]
    rcases mem_cycles_addCycle hc with hold | rfl
    · exact hn.named c hold v hv
    · -- The members are the nodes of the trail from its head to the target of the link.
      obtain ⟨hvtrail, hle⟩ := (mem_cycleFrom_iff hw).mp hv
      obtain ⟨u, rest, rfl⟩ := List.exists_cons_of_ne_nil (List.ne_nil_of_mem hw)
      have hutrail : u ∈ u :: rest := List.mem_cons_self
      refine ⟨u, (h.opened_iff u).mpr (.inl hutrail), w, hhead u rfl, ?_, ?_⟩
      · refine h.spansAt_of_mem_trail hn.trail_order hvtrail hutrail ?_
        rw [List.idxOf_cons_self]
        exact Nat.zero_le _
      · exact h.spansAt_of_mem_trail hn.trail_order hw hvtrail hle
  · intro u hu v w' hlink hvu hwv
    rw [finished_addCycle] at hu
    obtain ⟨c, hc, hv⟩ := hn.closing u hu v w' hlink (hspans.mp hvu) (hspans.mp hwv)
    exact ⟨c, (s.grows_addCycle _).cycles.subset hc, hv⟩

/-- The search goes on to a new node. -/
theorem reach (hn : g.Nested trail s) (h : g.Underway trail s) (hnew : v ∉ trail)
    (hopen : v ∉ s.finished) (hafter : g.Underway (v :: trail) (s.reach v)) :
    g.Nested (v :: trail) (s.reach v) := by
  have hv : v ∉ s.opened := by
    rw [h.opened_iff]
    exact fun hor => hor.elim hnew hopen
  have hlast : (s.reach v).opened.idxOf v = s.opened.length := by
    rw [opened_reach, List.idxOf_append_of_notMem hv, List.idxOf_cons_self, Nat.add_zero]
  have hold : ∀ {a}, a ∈ s.opened → (s.reach v).opened.idxOf a = s.opened.idxOf a := by
    intro a ha
    rw [opened_reach, List.idxOf_append_of_mem ha]
  have htrail : ∀ a ∈ trail, a ∈ s.opened := fun a ha => h.mem_opened_of_mem_trail ha
  have hfinished : ∀ a ∈ s.finished, a ∈ s.opened := fun a ha => (h.opened_iff a).mpr (.inr ha)
  -- Between nodes reached before nothing changes.
  have hspans : ∀ {a b}, b ∈ s.opened →
      ((s.reach v).SpansAt (v :: trail) a b ↔ a ∈ s.opened ∧ s.SpansAt trail a b) := by
    intro a b hb
    constructor
    · intro hab
      have ha := mem_opened_of_spansAt_reach hb hab
      exact ⟨ha, (h.spansAt_reach_iff hv ha hb).mp hab⟩
    · rintro ⟨ha, hab⟩
      exact (h.spansAt_reach_iff hv ha hb).mpr hab
  have horder : (v :: trail).Pairwise fun a b =>
      (s.reach v).opened.idxOf b < (s.reach v).opened.idxOf a := by
    refine List.pairwise_cons.mpr ⟨?_, ?_⟩
    · intro a ha
      rw [hlast, hold (htrail a ha)]
      exact List.idxOf_lt_length_of_mem (htrail a ha)
    · refine hn.trail_order.imp_of_mem fun ha hb hlt => ?_
      rwa [hold (htrail _ ha), hold (htrail _ hb)]
  refine ⟨horder, ?_, ?_, ?_, ?_⟩
  · intro a b u hu hau hbu hle
    rw [opened_reach, List.mem_append, List.mem_singleton] at hu
    rcases hu with hu | rfl
    · obtain ⟨ha, hau⟩ := (hspans hu).mp hau
      obtain ⟨hb, hbu⟩ := (hspans hu).mp hbu
      rw [hold ha, hold hb] at hle
      exact (hspans hb).mpr ⟨ha, hn.laminar hu hau hbu hle⟩
    · -- What spans the new node is on the trail.
      have ha := hafter.mem_trail_of_spansAt hau
      have hb := hafter.mem_trail_of_spansAt hbu
      refine hafter.spansAt_of_mem_trail horder ha hb (Nat.le_of_not_lt fun hlt => ?_)
      have hback := hafter.spansAt_of_mem_trail horder hb ha hlt.le
      have hsame := (List.idxOf_inj (hafter.mem_opened_of_mem_trail ha)).mp
        (Nat.le_antisymm hle hback.1)
      rw [hsame] at hlt
      exact Nat.lt_irrefl _ hlt
  · intro u hu w hlink
    obtain ⟨hw, hplace⟩ := hn.links u hu w hlink
    have hu' := hfinished u hu
    refine ⟨List.mem_append_left _ hw, fun hlater => ?_⟩
    rw [hold hw, hold hu']
    refine hplace ?_
    exact (idxOf_le_insert_iff (fun hmem => hv (h.mem_opened_iff.mpr hmem))
      (h.mem_opened_iff.mp hu') (h.mem_opened_iff.mp hw)).mp hlater
  · intro c hc x hx
    obtain ⟨u, hu, w, hlink, hxu, hwx⟩ := hn.named c hc x hx
    have hx' := hxu.mem_opened hu
    exact ⟨u, List.mem_append_left _ hu, w, hlink, (hspans hu).mpr ⟨hx', hxu⟩,
      (hspans hx').mpr ⟨hwx.mem_opened hx', hwx⟩⟩
  · intro u hu x w hlink hxu hwx
    obtain ⟨hx, hxu⟩ := (hspans (hfinished u hu)).mp hxu
    exact hn.closing u hu x w hlink hxu ((hspans hx).mp hwx).2

/-- The search leaves the head of the trail once a cycle has been closed over each of its links
back into the trail. -/
theorem leave (hn : g.Nested (v :: trail) s) (h : g.Underway (v :: trail) s)
    (hlinks : ∀ w, g.Leads v w → w ∈ s.finished ∨ w ∈ v :: trail)
    (hcycles : ∀ w, g.Leads v w → w ∈ v :: trail →
      ∃ c ∈ s.cycles, ∀ x ∈ cycleFrom (v :: trail) w, x ∈ c) (depth : Nat) :
    g.Nested trail (s.leave v depth) := by
  have hleaving : (s.leave v depth).leaving trail = s.leaving (v :: trail) := by
    simp [leaving]
  have hspans : ∀ {a b}, (s.leave v depth).SpansAt trail a b ↔ s.SpansAt (v :: trail) a b := by
    simp [SpansAt, hleaving]
  have hhead : (v :: trail).idxOf v = 0 := List.idxOf_cons_self
  refine ⟨(List.pairwise_cons.mp hn.trail_order).2, ?_, ?_, ?_, ?_⟩
  · intro a b u hu hau hbu hle
    exact hspans.mpr (hn.laminar hu (hspans.mp hau) (hspans.mp hbu) hle)
  · intro u hu w hlink
    rw [hleaving, opened_leave]
    rw [finished_leave, List.mem_append, List.mem_singleton] at hu
    rcases hu with hu | rfl
    · exact hn.links u hu w hlink
    · rcases hlinks w hlink with hleft | htrail
      · refine ⟨(h.opened_iff w).mpr (.inr hleft), fun hlater => ?_⟩
        rw [h.idxOf_leaving List.mem_cons_self, leaving, List.idxOf_append_of_mem hleft] at hlater
        have hplace := List.idxOf_lt_length_of_mem hleft
        omega
      · refine ⟨(h.opened_iff w).mpr (.inl htrail), fun _ => ?_⟩
        exact (h.spansAt_of_mem_trail hn.trail_order htrail List.mem_cons_self (by omega)).1
  · intro c hc x hx
    obtain ⟨u, hu, w, hlink, hxu, hwx⟩ := hn.named c hc x hx
    exact ⟨u, hu, w, hlink, hspans.mpr hxu, hspans.mpr hwx⟩
  · intro u hu x w hlink hxu hwx
    rw [hspans] at hxu hwx
    rw [finished_leave, List.mem_append, List.mem_singleton] at hu
    rcases hu with hu | rfl
    · exact hn.closing u hu x w hlink hxu hwx
    · -- Both are on the trail, and so the node is a member of the cycle that the link closes.
      have hx := h.mem_trail_of_spansAt hxu
      have hw := h.mem_trail_of_spansAt (hwx.trans hxu)
      obtain ⟨c, hc, hmembers⟩ := hcycles w hlink hw
      have hle := hwx.2
      rw [h.idxOf_leaving hx, h.idxOf_leaving hw] at hle
      exact ⟨c, hc, hmembers x ((mem_cycleFrom_iff hw).mpr ⟨hx, by omega⟩)⟩

end Nested

/-- The search below a trail keeps the spans nested, and over each link back into the trail it has
closed a cycle. -/
theorem Underway.explore_nested (hg : g.IsProper) (h : g.Underway trail s)
    (hmem : ∀ v ∈ vs, v ∈ g.nodes) (hhead : ∀ u ∈ trail.head?, ∀ v ∈ vs, g.Leads u v)
    (depth : Nat) (hn : g.Nested trail s) :
    g.Nested trail (g.explore trail vs depth s).2 ∧
      ∀ w ∈ vs, w ∈ trail → ∃ c ∈ (g.explore trail vs depth s).2.cycles,
        ∀ x ∈ cycleFrom trail w, x ∈ c := by
  refine Underway.explore_induction hg
    (motive := fun trail vs _ s r => g.Nested trail s → g.Nested trail r.2 ∧
      ∀ w ∈ vs, w ∈ trail → ∃ c ∈ r.2.cycles, ∀ x ∈ cycleFrom trail w, x ∈ c)
    ?nil ?left ?back ?new h hmem hhead depth hn
  case nil =>
    intro trail depth s _ hn
    exact ⟨hn, fun w hw => absurd hw List.not_mem_nil⟩
  case left =>
    intro trail v rest depth s d r h hdepth ih hn
    obtain ⟨hend, hrest⟩ := ih hn
    refine ⟨hend, List.forall_mem_cons.mpr ⟨fun htrail => ?_, hrest⟩⟩
    exact absurd (mem_finished_of_depth? hdepth) (h.apart v htrail)
  case back =>
    intro trail v rest depth s r h _ htrail hlink hgrows ih hn
    obtain ⟨hend, hrest⟩ := ih (hn.addCycle h htrail hlink)
    obtain ⟨c, hc, hmembers⟩ := s.exists_mem_cycles_addCycle (cycleFrom trail v)
    exact ⟨hend, List.forall_mem_cons.mpr
      ⟨fun _ => ⟨c, hgrows.cycles.subset hc, hmembers⟩, hrest⟩⟩
  case new =>
    intro trail v rest depth s below r h hnew hopen hreach hbelow hlinks ihbelow ihrest hn
    obtain ⟨hunder, hcycles⟩ := ihbelow (hn.reach h hnew hopen hreach)
    obtain ⟨hend, hrest⟩ := ihrest (hunder.leave hbelow hlinks hcycles below.1)
    exact ⟨hend, List.forall_mem_cons.mpr ⟨fun htrail => absurd htrail hnew, hrest⟩⟩

theorem IsProper.nested_survey (hg : g.IsProper) : g.Nested [] g.survey :=
  ((underway_start g).explore_nested hg (fun _ hv => hv) (by simp) 0 (.start g)).1

/-! ## Which nodes are named -/

/-- A node is a member of a cycle of the survey exactly if a link leads from its span to a node
around it. -/
theorem IsProper.mem_cycles_iff (hg : g.IsProper) :
    (∃ c ∈ g.cycles, v ∈ c) ↔
      ∃ u w, g.Leads u w ∧ g.survey.Spans v u ∧ g.survey.Spans w v := by
  have hn := hg.nested_survey
  constructor
  · rintro ⟨c, hc, hv⟩
    obtain ⟨u, _, w, hlink, hvu, hwv⟩ := hn.named c hc v hv
    exact ⟨u, w, hlink, spansAt_nil.mp hvu, spansAt_nil.mp hwv⟩
  · rintro ⟨u, w, hlink, hvu, hwv⟩
    have hu := hg.mem_finished_iff.mpr (hg.source_mem hlink)
    exact hn.closing u hu v w hlink (spansAt_nil.mpr hvu) (spansAt_nil.mpr hwv)

/-- The node of a component that the search reaches first spans the whole component. -/
theorem IsProper.spans_of_reaches (hg : g.IsProper) {q : String}
    (hfirst : ∀ x, Relation.ReflTransGen g.Leads q x → Relation.ReflTransGen g.Leads x q →
      g.survey.opened.idxOf q ≤ g.survey.opened.idxOf x)
    (hqx : Relation.ReflTransGen g.Leads q x) (hxq : Relation.ReflTransGen g.Leads x q) :
    g.survey.Spans q x := by
  have hn := hg.nested_survey
  rw [← spansAt_nil]
  induction hqx with
  | refl => exact .refl _ _ _
  | @tail y x hqy hlink ih =>
    have hqy' := ih (.head hlink hxq)
    have hle := hfirst x (hqy.tail hlink) hxq
    have hy := hg.mem_finished_iff.mpr (hg.source_mem hlink)
    obtain ⟨_, hplace⟩ := hn.links y hy x hlink
    rcases Nat.lt_or_ge ((g.survey.leaving []).idxOf x) ((g.survey.leaving []).idxOf y) with
      hbefore | hafter
    · exact ⟨hle, hbefore.le.trans hqy'.2⟩
    · have hopened := (hg.underway_survey.opened_iff y).mpr (.inr hy)
      exact hn.laminar hopened hqy' ⟨hplace hafter, hafter⟩ hle

/-- Some node of every component with a cycle is named. -/
theorem IsProper.exists_named (hg : g.IsProper) (hv : Relation.TransGen g.Leads v v) :
    ∃ q, Relation.ReflTransGen g.Leads v q ∧ Relation.ReflTransGen g.Leads q v ∧
      ∃ c ∈ g.cycles, q ∈ c := by
  -- It is the first one that the search reaches.
  obtain ⟨q, ⟨hvq, hqv⟩, hmin⟩ := (measure g.survey.opened.idxOf).wf.has_min
    {x | Relation.ReflTransGen g.Leads v x ∧ Relation.ReflTransGen g.Leads x v}
    ⟨v, .refl, .refl⟩
  have hfirst : ∀ x, Relation.ReflTransGen g.Leads q x → Relation.ReflTransGen g.Leads x q →
      g.survey.opened.idxOf q ≤ g.survey.opened.idxOf x :=
    fun x hqx hxq => Nat.le_of_not_lt (hmin x ⟨hvq.trans hqx, hxq.trans hqv⟩)
  have hcycle : Relation.TransGen g.Leads q q := (hv.trans_right hqv).trans_left hvq
  obtain ⟨u, hqu, hlink⟩ := Relation.TransGen.tail'_iff.mp hcycle
  exact ⟨q, hvq, hqv, hg.mem_cycles_iff.mpr
    ⟨u, q, hlink, hg.spans_of_reaches hfirst hqu (.single hlink), Nat.le_refl _, Nat.le_refl _⟩⟩

end LinkGraph

namespace Store

open Relation

variable {locked : String → Bool}

/-- A token is named in a circular defect exactly if some reference leads from a token that the
search came to by way of it, or from the token itself, to one by way of which the search came to it.
Whether a token on a cycle is named depends on that; but of the tokens that are on cycles with it
some token is. -/
theorem named_in_cycle_iff (s : Store locked) (t : LinkThresholds) :
    (∀ v, (∃ c, .circular c ∈ (s.linkReport t).defects ∧ v ∈ c) ↔
      ∃ u w, s.graph.Leads u w ∧ s.graph.survey.Spans v u ∧ s.graph.survey.Spans w v) ∧
    ∀ v, TransGen s.graph.Leads v v →
      ∃ q, ReflTransGen s.graph.Leads v q ∧ ReflTransGen s.graph.Leads q v ∧
        ∃ c, .circular c ∈ (s.linkReport t).defects ∧ q ∈ c := by
  have hg := s.graph_isProper
  have hcircular : ∀ v, (∃ c, .circular c ∈ (s.linkReport t).defects ∧ v ∈ c) ↔
      ∃ c ∈ s.graph.cycles, v ∈ c := by
    intro v
    exact exists_congr fun c => and_congr_left fun _ => LinkGraph.circular_mem_defects_iff
  simp only [hcircular]
  exact ⟨fun v => hg.mem_cycles_iff, fun v hv => hg.exists_named hv⟩

/-- Two tokens that refer to each other, and a third one on a longer way from one to the other. -/
def detour : OpenStore :=
  ⟨[{ path := "a", value := .text "\x7bb\x7d \x7bc\x7d" },
    { path := "b", value := .text "\x7ba\x7d" },
    { path := "c", value := .text "\x7bb\x7d" }], by decide⟩

/-- The third token is on a cycle, but when the search comes to it the token that it refers to has
been left already; so it is not named, and another token of its cycle is. -/
theorem named_in_cycle_iff_detour :
    TransGen detour.graph.Leads "c" "c" ∧
      (¬ ∃ c, .circular c ∈ (detour.linkReport {}).defects ∧ "c" ∈ c) ∧
      ∃ q, ReflTransGen detour.graph.Leads "c" q ∧ ReflTransGen detour.graph.Leads q "c" ∧
        ∃ c, .circular c ∈ (detour.linkReport {}).defects ∧ q ∈ c := by
  have hgraph : detour.graph =
      ⟨["a", "b", "c"],
        [⟨"a", "b", true⟩, ⟨"a", "c", true⟩, ⟨"b", "a", true⟩, ⟨"c", "b", true⟩]⟩ := by
    decide +kernel
  have hlinks : detour.graph.Leads "c" "b" ∧ detour.graph.Leads "b" "a" ∧
      detour.graph.Leads "a" "c" := by
    rw [hgraph]
    decide
  have hcycle : TransGen detour.graph.Leads "c" "c" :=
    .head hlinks.1 (.head hlinks.2.1 (.single hlinks.2.2))
  have hsurvey : detour.graph.survey =
      ⟨["a", "b", "c"], [("b", 1), ("c", 2), ("a", 3)], [["a", "b"]]⟩ := by
    rw [hgraph]
    simp [LinkGraph.survey, LinkGraph.explore, LinkGraph.successors, Survey.depth?, Survey.reach,
      Survey.leave, Survey.addCycle, Survey.cycleFrom, List.lookup_cons]
  obtain ⟨hnamed, hsome⟩ := named_in_cycle_iff detour {}
  refine ⟨hcycle, ?_, hsome "c" hcycle⟩
  rw [hnamed]
  rintro ⟨u, w, hlink, hspan⟩
  obtain ⟨l, hl, _, rfl, rfl⟩ := LinkGraph.leads_iff.mp hlink
  unfold Survey.Spans Survey.finished at hspan
  rw [hsurvey] at hspan
  rw [hgraph] at hl
  revert l
  decide

end Store

end DesignTokens
