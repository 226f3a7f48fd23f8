import DesignTokens.Proofs.Migration.Redundant

/-!
# Resolved values after a merge

A store is coherent when each resolved value in it is the one that a resolution computes.  A merge
drops the resolved value of every token that it rewrites, and of no other.  A token further up, which
needs a rewritten one through others, keeps its resolved value although what it rests on may have
changed.  So a merge in a coherent store leaves a coherent one exactly if these tokens still come to
the values that they hold.
-/

namespace DesignTokens

open Relation

namespace Store

variable {s s' : OpenStore} {k : Token} {sources : List String} {ops : List Operation}

/-! ## Coherent stores -/

/-- Every resolved value is the one that a resolution computes. -/
def Coherent (s : OpenStore) : Prop :=
  ∀ t ∈ s.tokens, ∀ v, t.resolved = some v → s.computed? t.path = some v

/-- A coherent store stays coherent exactly if the tokens with a resolved value that lead to a lost
path, or to a token that referred to one, come to this value. -/
theorem Reduced.coherent_iff (h : Reduced s s') (hs : s.Coherent) :
    s'.Coherent ↔ ∀ t ∈ s'.tokens, ∀ v, t.resolved = some v →
      (∃ q, TransGen s.Needs t.path q ∧ (q ∈ s.lost s' ∨ s.RefersToAny (s.lost s') q)) →
        s'.computed? t.path = some v := by
  constructor
  · exact fun hs' t ht v hv _ => hs' t ht v hv
  · intro hleads t ht v hv
    rcases h.resolved t ht v hv with ⟨hold, hfree⟩
    by_cases hchain : ∃ q, TransGen s.Needs t.path q ∧
        (q ∈ s.lost s' ∨ s.RefersToAny (s.lost s') q)
    · exact hleads t ht v hv hchain
    · have hcomes := computed?_eq_some_iff.mp (hs t hold v hv)
      refine computed?_eq_some_iff.mpr (h.comesTo (fun q hq => ?_) hcomes)
      rcases reflTransGen_iff_eq_or_transGen.mp hq with rfl | hq
      · refine ⟨fun hgone => (mem_lost.mp hgone).2 (path_mem_paths ht), ?_⟩
        rintro ⟨u, hu, hpath, p, hp, href⟩
        rw [eq_of_path_eq hu hold hpath, hfree p hp] at href
        cases href
      · exact ⟨fun hgone => hchain ⟨q, hq, .inl hgone⟩, fun href => hchain ⟨q, hq, .inr href⟩⟩

/-- Merging tokens of one value leaves a coherent store coherent. -/
theorem Coherent.of_mergeRun (hs : s.Coherent) (hk : k ∈ s.tokens) (hout : k.path ∉ sources)
    (hrun : TargetRun (mergeSource false k.path) sources s s' ops)
    (hredundant : s.Redundant (k.path :: sources)) : s'.Coherent := by
  intro t ht v hv
  rcases (reduced_of_mergeRun hk hout hrun).resolved t ht v hv with ⟨hold, _⟩
  have hcomes := computed?_eq_some_iff.mp (hs t hold v hv)
  have hkept : t.path ∉ s.lost s' := fun hgone => (mem_lost.mp hgone).2 (path_mem_paths ht)
  have hcomes' := comesTo_of_mergeRun hk hout hrun hredundant hcomes
  rw [standIn, if_neg hkept] at hcomes'
  exact computed?_eq_some_iff.mpr hcomes'

/-- A merge in a coherent store takes paths away and drops the resolved value of every token that
referred to one of them, so that the tokens with a resolved value are as they were.  The store that
it leaves is coherent exactly if those of them that lead, directly or through others, to a path that
was taken away or to a token that referred to one still come to the value that they hold.  That is so
if the merged tokens are redundant: they come to one value. -/
theorem coherent_after_merge {a : Action} (hkind : a.kind = .merge) (hnodup : a.targets.Nodup)
    (hs : s.Coherent) :
    ∃ s' ops, s.runAction false a = (s', .ok ops) ∧
      (∀ t ∈ s'.tokens, ∀ v, t.resolved = some v →
        t ∈ s.tokens ∧ ∀ p ∈ s.lost s', t.references p = false) ∧
      (s'.Coherent ↔ ∀ t ∈ s'.tokens, ∀ v, t.resolved = some v →
        (∃ q, TransGen s.Needs t.path q ∧ (q ∈ s.lost s' ∨ s.RefersToAny (s.lost s') q)) →
          s'.computed? t.path = some v) ∧
      (s.Redundant a.targets → s'.Coherent) := by
  rcases s.exists_merge hkind with ⟨s', ops, hrun, rfl | ⟨k, hk, sources, htargets, hmerge⟩⟩
  · have hreduced : Reduced s' s' := .refl s'
    exact ⟨s', ops, hrun, hreduced.resolved, hreduced.coherent_iff hs, fun _ => hs⟩
  · rw [htargets, List.nodup_cons] at hnodup
    have hreduced := reduced_of_mergeRun hk hnodup.1 hmerge
    refine ⟨s', ops, hrun, hreduced.resolved, hreduced.coherent_iff hs, fun hredundant => ?_⟩
    exact hs.of_mergeRun hk hnodup.1 hmerge (htargets ▸ hredundant)

/-- Tokens with their resolved values, in which an outline takes its colour from a border and that
one from a background. -/
def resolvedChain : OpenStore :=
  ⟨[{ path := "background.action.accent", value := .color "#3B82F6" },
    { path := "background.surface.accent", value := .color "#111111" },
    { path := "border.surface.accent", value := .text "\x7bbackground.surface.accent\x7d"
      resolved := some (.color "#111111") },
    { path := "outline.surface.accent", value := .text "\x7bborder.surface.accent\x7d"
      resolved := some (.color "#111111") }], by decide⟩

/-- When the second background is merged into the first one, the border gets the other colour.  The
outline comes to that colour too, but it keeps the resolved value that it had. -/
theorem coherent_after_merge_resolvedChain :
    ∃ (a : Action) (s' : OpenStore) (ops : List Operation), a.kind = .merge ∧ a.targets.Nodup ∧
      resolvedChain.Coherent ∧ resolvedChain.runAction false a = (s', .ok ops) ∧
      ∃ t ∈ s'.tokens, t.path = "outline.surface.accent" ∧ t.resolved = some (.color "#111111") ∧
        s'.computed? t.path = some (.color "#3B82F6") ∧ ¬ s'.Coherent := by
  let a : Action :=
    { id := "t.1", kind := .merge, description := ""
      targets := ["background.action.accent", "background.surface.accent"] }
  let surface : Token := resolvedChain.tokens[1]
  let border : Token := resolvedChain.tokens[2]
  let outline : Token := resolvedChain.tokens[3]
  have hborder : border ∈ resolvedChain.tokens := List.getElem_mem _
  have houtline : outline ∈ resolvedChain.tokens := List.getElem_mem _
  -- Before the merge both come to the colour of the second background.
  have hsurfaceValue : resolvedChain.ComesTo surface.path (.color "#111111") :=
    .independent (t := surface) (List.getElem_mem _) (by decide +kernel)
  have hborderValue : resolvedChain.ComesTo border.path (.color "#111111") :=
    .whole hborder (by decide +kernel) hsurfaceValue
  have houtlineValue : resolvedChain.ComesTo outline.path (.color "#111111") :=
    .whole houtline (by decide +kernel) hborderValue
  have hcoherent : resolvedChain.Coherent := by
    intro t ht v hv
    simp only [resolvedChain, List.mem_cons, List.not_mem_nil, or_false] at ht
    rcases ht with rfl | rfl | rfl | rfl
    · cases hv
    · cases hv
    · cases hv
      exact computed?_eq_some_iff.mpr hborderValue
    · cases hv
      exact computed?_eq_some_iff.mpr houtlineValue
  rcases coherent_after_merge (a := a) rfl (by decide) hcoherent with ⟨s', ops, hrun, _, hiff, _⟩
  have hs' : s' = (resolvedChain.runAction false a).1 := by rw [hrun]
  let action : Token := resolvedChain.tokens[0]
  let border' : Token :=
    { border with value := .text "\x7bbackground.action.accent\x7d", resolved := none }
  have htokens : s'.tokens = [action, border', outline] := by
    rw [hs']
    decide +kernel
  have hknown : s'.contains = fun p => [action, border', outline].any fun t => t.path == p := by
    funext p
    rw [contains, htokens]
  have hactionValue : s'.ComesTo action.path (.color "#3B82F6") :=
    .independent (t := action) (by simp [htokens]) (by rw [hknown]; decide +kernel)
  have hborderValue' : s'.ComesTo border'.path (.color "#3B82F6") :=
    .whole (by simp [htokens]) (by rw [hknown]; decide +kernel) hactionValue
  have houtlineValue' : s'.ComesTo outline.path (.color "#3B82F6") :=
    .whole (by simp [htokens]) (by rw [hknown]; decide +kernel) hborderValue'
  have hmem : outline ∈ s'.tokens := by simp [htokens]
  refine ⟨a, s', ops, rfl, by decide, hcoherent, hrun, outline, hmem, rfl, rfl,
    computed?_eq_some_iff.mpr houtlineValue', fun hs'' => ?_⟩
  -- The outline leads to the border, which referred to the path that is lost.
  have hlink : resolvedChain.Needs outline.path border.path :=
    (needs_iff_of_mem houtline).mpr (by decide +kernel)
  have hlost : surface.path ∈ resolvedChain.lost s' := by
    rw [mem_lost, paths, paths, htokens]
    decide
  have hstale := hiff.mp hs'' outline hmem _ rfl ⟨border.path, .single hlink,
    .inr ⟨border, hborder, rfl, surface.path, hlost, by decide +kernel⟩⟩
  simpa using (computed?_eq_some_iff.mp hstale).unique houtlineValue'

end Store

end DesignTokens
