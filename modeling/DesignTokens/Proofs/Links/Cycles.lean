import DesignTokens.Links.Graph
import DesignTokens.Proofs.Reference.Pieces
import DesignTokens.Proofs.Store.Tokens
import Mathlib.Logic.Relation

/-!
# Cycles of the reference graph

A graph is cyclic when a chain of resolved links leads from some path back to itself.  A link of a
store is read off the token it starts from: the token's text embeds the target, or it is the
target by itself.  Whether a target counts depends on the store only through whether the store
has it.
-/

namespace DesignTokens

/-! ## Targets of a token -/

namespace Token

open Reference

theorem mem_targets {t : Token} {known : String → Bool} {q : String} :
    q ∈ t.targets known ↔ ∃ y, t.value.text? = some y ∧
      (q ∈ embedded y ∨ embedded y = [] ∧ q = Text.trim y ∧ q ≠ "" ∧ q ≠ t.path ∧
        Text.hasBlank q = false ∧ known q = true) := by
  unfold targets
  cases ht : t.value.text? with
  | none => simp
  | some y =>
    simp only [Option.some.injEq, exists_eq_left']
    by_cases hnone : embedded y = []
    · -- Without embedded references the whole text may be a target.
      rw [extract_of_not_embedded hnone]
      simp only [hnone, List.not_mem_nil, false_or, true_and]
      split
      · next hbare =>
        simp only [Bool.not_eq_eq_eq_not, Bool.not_true] at hbare
        rw [List.mem_singleton]
        constructor
        · rintro rfl
          exact ⟨rfl, hbare⟩
        · exact fun h => h.1
      · next hbare =>
        simp only [List.not_mem_nil, false_iff]
        intro hfound
        rcases hfound with ⟨rfl, hrest⟩
        exact hbare (by simpa using hrest)
    · -- With embedded references these are the targets, each once.
      rw [extract_of_embedded hnone, Text.mem_firsts]
      simp [hnone]

theorem mem_targets_congr {t : Token} {known known' : String → Bool} {q : String}
    (h : known q = known' q) : q ∈ t.targets known ↔ q ∈ t.targets known' := by
  rw [mem_targets, mem_targets, h]

end Token

/-! ## Chains of links -/

namespace LinkGraph

variable {g : LinkGraph} {p q : String}

/-- A resolved link leads from one path to the other. -/
def Leads (g : LinkGraph) (p q : String) : Prop := q ∈ g.successors p

instance (g : LinkGraph) (p q : String) : Decidable (g.Leads p q) :=
  inferInstanceAs (Decidable (q ∈ g.successors p))

/-- A link between two paths that are both outside a list. -/
def LeadsOutside (g : LinkGraph) (out : List String) (p q : String) : Prop :=
  p ∉ out ∧ q ∉ out ∧ g.Leads p q

/-- A chain of resolved links leads from some path back to itself. -/
def Cyclic (g : LinkGraph) : Prop := ∃ p, Relation.TransGen g.Leads p p

theorem leads_iff :
    g.Leads p q ↔ ∃ l ∈ g.links, l.resolved = true ∧ l.source = p ∧ l.target = q := by
  unfold Leads successors
  rw [List.mem_filterMap]
  refine exists_congr fun l => and_congr_right fun _ => ?_
  simp only [Option.ite_none_right_eq_some, Option.some.injEq]
  exact ⟨fun h => ⟨h.1.2, h.1.1, h.2⟩, fun h => ⟨⟨h.2.1, h.1⟩, h.2.2⟩⟩

/-- Links that lead down to smaller ranks close no cycle. -/
theorem not_cyclic_of_rank (rank : String → Nat)
    (h : ∀ l ∈ g.links, l.resolved = true → rank l.target < rank l.source) : ¬ g.Cyclic := by
  have hlink : ∀ {p q : String}, g.Leads p q → rank q < rank p := by
    intro p q hpq
    rcases leads_iff.mp hpq with ⟨l, hl, hresolved, rfl, rfl⟩
    exact h l hl hresolved
  -- So a chain leads down as well, and none leads back.
  have hchain : ∀ {p q : String}, Relation.TransGen g.Leads p q → rank q < rank p := by
    intro p q hpq
    induction hpq with
    | single hpq => exact hlink hpq
    | tail _ hpq ih => exact Nat.lt_trans (hlink hpq) ih
  intro hcycle
  rcases hcycle with ⟨p, hp⟩
  exact Nat.lt_irrefl _ (hchain hp)

/-- A cycle all of whose links are of another kind is a cycle of that kind. -/
theorem transGen_of_onCycle {α : Type} {R S : α → α → Prop} {a : α}
    (h : ∀ x y, Relation.TransGen R x x → Relation.TransGen R y y → R x y → S x y)
    (ha : Relation.TransGen R a a) : Relation.TransGen S a a := by
  -- Every point on the way to `a` is itself on a cycle: on to `a`, and from there back to it.
  have hpart : ∀ {x : α}, Relation.TransGen R x a → Relation.ReflTransGen R a x →
      Relation.TransGen S x a := by
    intro x hxa
    induction hxa using Relation.TransGen.head_induction_on with
    | single hlink =>
      intro hback
      exact .single (h _ _ (.trans_left (.single hlink) hback) ha hlink)
    | head hlink hrest ih =>
      intro hback
      have hx := Relation.TransGen.trans_left (.head hlink hrest) hback
      have hy := Relation.TransGen.trans_left hrest (hback.tail hlink)
      exact .head (h _ _ hx hy hlink) (ih (hback.tail hlink))
  exact hpart ha .refl

end LinkGraph

/-! ## Links of a store -/

namespace Store

variable {locked : String → Bool} {s : Store locked} {p q : String}

theorem leads_iff :
    s.graph.Leads p q ↔ ∃ t ∈ s.tokens, t.path = p ∧ q ∈ t.targets s.contains ∧ q ∈ s.paths := by
  rw [LinkGraph.leads_iff]
  constructor
  · intro hlink
    rcases hlink with ⟨l, hl, hknown, hp, rfl⟩
    rcases List.mem_flatMap.mp hl with ⟨t, ht, hmem⟩
    rcases List.mem_map.mp hmem with ⟨target, htarget, rfl⟩
    exact ⟨t, ht, hp, htarget, contains_iff.mp hknown⟩
  · intro htoken
    rcases htoken with ⟨t, ht, hp, htarget, hknown⟩
    refine ⟨⟨t.path, q, s.contains q⟩, ?_, contains_iff.mpr hknown, hp, rfl⟩
    exact List.mem_flatMap.mpr ⟨t, ht, List.mem_map.mpr ⟨q, htarget, rfl⟩⟩

theorem leads_iff_of_mem {t : Token} (ht : t ∈ s.tokens) :
    s.graph.Leads t.path q ↔ q ∈ t.targets s.contains ∧ q ∈ s.paths := by
  rw [leads_iff]
  constructor
  · intro htoken
    rcases htoken with ⟨u, hu, hpath, hq⟩
    rwa [← eq_of_path_eq hu ht hpath]
  · exact fun hq => ⟨t, ht, rfl, hq⟩

theorem mem_paths_of_leads (h : s.graph.Leads p q) : p ∈ s.paths ∧ q ∈ s.paths := by
  rcases leads_iff.mp h with ⟨t, ht, rfl, _, hq⟩
  exact ⟨path_mem_paths ht, hq⟩

end Store
end DesignTokens
