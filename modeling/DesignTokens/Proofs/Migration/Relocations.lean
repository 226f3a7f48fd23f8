import DesignTokens.Proofs.Audit.Findings
import DesignTokens.Proofs.Migration.Paths
import DesignTokens.Proofs.Naming.RoundTrip

/-!
# Where the renames and restructures of a plan move the paths

A plan moves compliant paths to their canonical form and the other readable ones to their suggested
names.  A canonical path is compliant and moves nowhere, and a suggested name is free, so these
moves stay out of each other's way, and the place of a path after all of them is read off the
findings.
-/

namespace DesignTokens
namespace Findings

open Store

variable {α : Type} {s : OpenStore} {f : Findings α} {p q : String}

theorem lookup_of_mem {pairs : List (String × String)} (hnodup : (pairs.map Prod.fst).Nodup)
    (h : (p, q) ∈ pairs) : pairs.lookup p = some q := by
  induction pairs with
  | nil => cases h
  | cons b pairs ih =>
    rcases List.nodup_cons.mp hnodup with ⟨hfirst, hnodup'⟩
    rcases List.mem_cons.mp h with rfl | hlater
    · simp
    · have hne : p ≠ b.1 := fun heq =>
        hfirst (heq ▸ List.mem_map_of_mem (f := Prod.fst) hlater)
      have hbeq : (p == b.1) = false := by simpa using hne
      rw [List.lookup_cons, hbeq]
      exact ih hnodup' hlater

theorem lookup_of_not_mem {pairs : List (String × String)} (h : p ∉ pairs.map Prod.fst) :
    pairs.lookup p = none := by
  rw [List.lookup_eq_none_iff]
  intro b hb
  have hne : p ≠ b.1 := fun heq => h (heq ▸ List.mem_map_of_mem hb)
  simpa using hne

theorem relocations_eq (f : Findings α) :
    f.relocations = f.nonCanonical ++ suggestedMoves f.suggestions := rfl

theorem relocated_of_not_mem (hp : p ∉ f.relocations.map Prod.fst) : f.relocated p = p := by
  rw [relocated, lookup_of_not_mem hp]
  rfl

namespace DrawnFrom

/-! ## Moves that do not meet -/

section

variable (h : f.DrawnFrom s)
include h

theorem independent_suggested : Independent (suggestedMoves f.suggestions) :=
  independent_suggestedMoves h.sources_nodup h.source_mem h.target_free

theorem independent_safe : Independent (suggestedMoves f.safe) :=
  h.independent_suggested.sublist (h.safe_sublist.map _)

/-- Rebuilding a canonical path gives that path, so none of them is rebuilt. -/
theorem not_mem_nonCanonical (hp : (p, q) ∈ f.nonCanonical) :
    q ∉ f.nonCanonical.map Prod.fst := by
  rcases (h.nonCanonical_iff p q).mp hp with ⟨_, _, n, hn, rfl⟩
  intro hmem
  rcases List.mem_map.mp hmem with ⟨⟨p', q'⟩, hb, heq⟩
  rcases (h.nonCanonical_iff p' q').mp hb with ⟨_, hne, n', hn', rfl⟩
  dsimp only at heq
  subst heq
  rw [Naming.strict?_path_of_strict? hn] at hn'
  cases hn'
  exact hne (Naming.path_normalized n)

theorem independent_nonCanonical : Independent f.nonCanonical where
  sources := h.nonCanonical_sublist.nodup s.nodup_paths
  apart b hb b' hb' heq := by
    refine h.not_mem_nonCanonical (p := b'.1) (q := b'.2) hb' ?_
    rw [← heq]
    exact List.mem_map_of_mem hb

theorem nonCanonical_strict :
    ∀ b ∈ f.nonCanonical, ∃ n, Naming.strict? b.1 = some n ∧ n.path = b.2 := by
  intro b hb
  rcases (h.nonCanonical_iff b.1 b.2).mp hb with ⟨_, _, n, hn, hpath⟩
  exact ⟨n, hn, hpath⟩

/-- A source of a suggestion cannot be read strictly. -/
theorem strict?_eq_none_of_mem_suggested (hp : p ∈ (suggestedMoves f.suggestions).map Prod.fst) :
    Naming.strict? p = none := by
  rcases List.mem_map.mp hp with ⟨b, hb, rfl⟩
  rcases List.mem_map.mp hb with ⟨c, hc, rfl⟩
  exact h.source_unread c hc

theorem sources_mem {b : String × String} (hb : b ∈ f.relocations) : b.1 ∈ s.paths := by
  rcases List.mem_append.mp hb with hb | hb
  · exact ((h.nonCanonical_iff b.1 b.2).mp hb).1
  · rcases List.mem_map.mp hb with ⟨c, hc, rfl⟩
    exact h.source_mem c hc

theorem independent_relocations : Independent f.relocations where
  sources := by
    rw [relocations_eq, List.map_append, List.nodup_append]
    refine ⟨h.independent_nonCanonical.sources, h.independent_suggested.sources, ?_⟩
    rintro p hp q hq rfl
    rcases List.mem_map.mp hp with ⟨b, hb, rfl⟩
    rcases (h.nonCanonical_iff b.1 b.2).mp hb with ⟨_, _, n, hn, _⟩
    simp [h.strict?_eq_none_of_mem_suggested hq] at hn
  apart b hb b' hb' := by
    have hbs := h.sources_mem hb
    rcases List.mem_append.mp hb' with hb' | hb'
    · rcases List.mem_append.mp hb with hb | hb
      · exact h.independent_nonCanonical.apart b hb b' hb'
      · -- A rebuilt path can be read, a source of a suggestion cannot.
        intro heq
        rcases (h.nonCanonical_iff b'.1 b'.2).mp hb' with ⟨_, _, n, hn, hpath⟩
        have hnone := h.strict?_eq_none_of_mem_suggested (List.mem_map_of_mem (f := Prod.fst) hb)
        rw [heq, ← hpath, Naming.strict?_path_of_strict? hn] at hnone
        cases hnone
    · rcases List.mem_map.mp hb' with ⟨c, hc, rfl⟩
      intro heq
      have hsame : b.1 = c.target := heq
      exact h.target_free c hc (hsame ▸ hbs)

/-! ## Places after the moves -/

theorem relocated_of_mem (hp : (p, q) ∈ f.relocations) : f.relocated p = q := by
  rw [relocated, lookup_of_mem h.independent_relocations.sources hp]
  rfl

/-- When all moves are done, the paths are the unresolved ones and the places of the old ones. -/
theorem mem_relocated_iff :
    p ∈ ((s.paths ++ f.unresolved).filter fun p => !(f.relocations.map Prod.fst).contains p) ++
        f.relocations.map Prod.snd ↔
      p ∈ f.unresolved ++ s.paths.map f.relocated := by
  have hsource : ∀ {x : String}, x ∈ f.relocations.map Prod.fst → x ∈ s.paths := by
    intro x hx
    rcases List.mem_map.mp hx with ⟨b, hb, rfl⟩
    exact h.sources_mem hb
  rw [List.mem_append, List.mem_filter, List.mem_append, List.mem_append]
  constructor
  · intro hplace
    rcases hplace with ⟨hp | hp, hkept⟩ | hp
    · have hout : p ∉ f.relocations.map Prod.fst := by simpa using hkept
      exact .inr (List.mem_map.mpr ⟨p, hp, relocated_of_not_mem hout⟩)
    · exact .inl hp
    · rcases List.mem_map.mp hp with ⟨b, hb, rfl⟩
      exact .inr (List.mem_map.mpr ⟨b.1, h.sources_mem hb, h.relocated_of_mem hb⟩)
  · intro hplace
    rcases hplace with hp | hp
    · have hout : p ∉ f.relocations.map Prod.fst := fun hmem =>
        h.unresolved_free p hp (hsource hmem)
      exact .inl ⟨.inr hp, by simpa using hout⟩
    · rcases List.mem_map.mp hp with ⟨x, hx, rfl⟩
      by_cases hmoved : x ∈ f.relocations.map Prod.fst
      · rcases List.mem_map.mp hmoved with ⟨b, hb, rfl⟩
        rw [h.relocated_of_mem hb]
        exact .inr (List.mem_map_of_mem hb)
      · rw [relocated_of_not_mem hmoved]
        exact .inl ⟨.inl hx, by simpa using hmoved⟩

/-- If all paths that come up are distinct then no two old paths get the same place. -/
theorem injOn_relocated
    (hnodup : (s.paths ++ f.unresolved ++ f.relocations.map Prod.snd).Nodup) :
    ∀ x ∈ s.paths, ∀ y ∈ s.paths, f.relocated x = f.relocated y → x = y := by
  -- A path that moves gets a target of its own, and no target is a path that stays.
  have htargets : (f.relocations.map Prod.snd).Nodup := (List.nodup_append.mp hnodup).2.1
  have hfresh : ∀ {x : String}, x ∈ s.paths → x ∉ f.relocations.map Prod.snd := fun hx hmem =>
    (List.nodup_append.mp hnodup).2.2 _ (List.mem_append_left _ hx) _ hmem rfl
  intro x hx y hy heq
  by_cases hxm : x ∈ f.relocations.map Prod.fst
  · rcases List.mem_map.mp hxm with ⟨b, hb, rfl⟩
    rw [h.relocated_of_mem hb] at heq
    by_cases hym : y ∈ f.relocations.map Prod.fst
    · rcases List.mem_map.mp hym with ⟨b', hb', rfl⟩
      rw [h.relocated_of_mem hb'] at heq
      rw [List.inj_on_of_nodup_map htargets hb hb' heq]
    · rw [relocated_of_not_mem hym] at heq
      exact absurd (heq ▸ List.mem_map_of_mem hb) (hfresh hy)
  · rw [relocated_of_not_mem hxm] at heq
    by_cases hym : y ∈ f.relocations.map Prod.fst
    · rcases List.mem_map.mp hym with ⟨b', hb', rfl⟩
      rw [h.relocated_of_mem hb'] at heq
      exact absurd (heq ▸ List.mem_map_of_mem hb') (hfresh hx)
    · rwa [relocated_of_not_mem hym] at heq

end

end DrawnFrom
end Findings
end DesignTokens
