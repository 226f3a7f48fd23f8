import DesignTokens.Proofs.Migration.Folding
import DesignTokens.Proofs.Migration.Inlining

/-!
# Survivors of a merge

A merge removes every source that it finds, the survivor as well if that is among its own sources.
If the survivor stays, then no third token refers to a merged source any more.  The survivor may:
the value that it takes in can itself name the source.
-/

namespace DesignTokens

namespace Token

open Reference

variable {t u : Token} {keep source r : String} {sources done : List String} {us : List Token}

/-! ## The survivor -/

theorem not_references_of_not_mentions (h : t.mentions r = false) : t.references r = false := by
  simp only [references_iff, h, ← Bool.not_eq_true, Bool.false_eq_true, and_false,
    not_false_eq_true]

/-- A whole reference that takes in a token which names none of some paths refers to none of them,
if it referred at most to that token. -/
theorem not_references_takeIn {known : String → Bool} (hform : t.dependence known = .whole u.path)
    (hother : r ≠ u.path → t.references r = false) (hplain : u.mentions r = false) :
    (t.takeIn u).references r = false := by
  by_cases href : t.references u.path = true
  · rw [takeIn, if_pos href, inline_of_whole hform, ← Bool.not_eq_true, references_iff]
    -- The token has the value of the other one now.
    intro hr
    have hmention : u.mentions r = true := hr.2
    rw [hplain] at hmention
    cases hmention
  · rw [takeIn, if_neg href]
    by_cases hr : r = u.path
    · rw [hr]
      simpa using href
    · exact hother hr

/-- A whole reference refers to no other clean path than its target. -/
theorem eq_of_references_of_whole {known : String → Bool} {target : String}
    (hform : t.dependence known = .whole target) (hr : IsClean r) (h : t.references r = true) :
    r = target := by
  rcases text_of_whole hform with ⟨y, hy, hshape⟩
  rcases mentions_iff.mp (references_iff.mp h).2 with ⟨z, hz, hmention⟩
  obtain rfl : z = y := Option.some.inj (hz.symm.trans hy)
  rcases hshape with ⟨hnone, hbare⟩ | ⟨hone, _⟩
  · rw [hnone] at hmention
    rw [← hbare]
    exact (hmention.resolve_right List.not_mem_nil).symm
  · rcases hmention with hbare | hmem
    · rw [embedded_of_trim_eq hbare fun c hc => (hr.2 c hc).1] at hone
      cases hone
    · rw [hone] at hmem
      exact List.mem_singleton.mp hmem

/-- A whole reference to one of some tokens takes in that one and no other, if the one names none of
them. -/
theorem absorb_of_whole {known : String → Bool} (hform : t.dependence known = .whole u.path)
    (hu : u ∈ us) (hsame : ∀ v ∈ us, v.path = u.path → v = u)
    (hother : ∀ r ∈ us.map path, r ≠ u.path → t.references r = false)
    (hplain : ∀ r ∈ done ++ us.map path, u.mentions r = false) :
    t.absorb done us = t.takeIn u := by
  induction us generalizing done with
  | nil => cases hu
  | cons v us ih =>
    rw [List.map_cons, List.forall_mem_cons] at hother
    by_cases hv : v.path = u.path
    · obtain rfl := hsame v List.mem_cons_self hv
      have hkept : v.followInto t.path done = v := followInto_of_untouched fun m hm =>
        not_references_of_not_mentions (hplain m (List.mem_append_left _ hm))
      rw [absorb, hkept]
      refine absorb_of_untouched fun w hw => ?_
      have hmem : w.path ∈ us.map path := List.mem_map_of_mem hw
      refine not_references_takeIn hform (hother.2 _ hmem) (hplain _ ?_)
      exact List.mem_append_right _ (List.mem_cons_of_mem _ hmem)
    · have hu' : u ∈ us := (List.mem_cons.mp hu).resolve_left fun heq => hv (heq ▸ rfl)
      have hkept : t.takeIn (v.followInto t.path done) = t :=
        takeIn_of_not_references (by simpa using hother.1 hv)
      rw [absorb, hkept]
      exact ih hu' (fun w hw => hsame w (List.mem_cons_of_mem _ hw)) hother.2
        (by simpa using hplain)

/-! ## Third tokens -/

/-- Following one source brings back no mention of another one. -/
theorem not_mentions_follow_of_not_mentions (hkeep : IsClean keep) (hr : IsClean r)
    (hne : r ≠ keep) (h : t.mentions r = false) : (t.follow source keep).mentions r = false := by
  by_cases href : t.references source = true
  · rcases exists_redirect? (references_iff.mp href).2 keep with ⟨y, y', hy, hy', hvalue⟩
    have hbefore : ¬ (Text.trim y = r ∨ r ∈ embedded y) := by
      intro hmention
      rw [mentions_iff.mpr ⟨y, hy, hmention⟩] at h
      cases h
    rw [← Bool.not_eq_true, mentions_iff]
    intro hmention
    rcases hmention with ⟨z, hz, hcase⟩
    obtain rfl : z = y' := by
      rw [follow, if_pos href, hvalue] at hz
      exact (Option.some.inj hz).symm
    rcases redirect?_cases hkeep.isReferable hy' with ⟨_, rfl⟩ | ⟨hmem, hembedded⟩
    · rw [hkeep.trim, hkeep.embedded] at hcase
      exact hne (hcase.resolve_right List.not_mem_nil).symm
    · have hkeepmem : keep ∈ embedded z := by
        rw [hembedded]
        exact List.mem_map.mpr ⟨source, hmem, if_pos rfl⟩
      rcases hcase with hbare | hin
      · -- The new text has braces, and the other source has none.
        have hbrace := (hr.2 '{' (hbare ▸ brace_mem_trim hkeepmem)).1
        simp [isBrace] at hbrace
      · rw [hembedded] at hin
        rcases List.mem_map.mp hin with ⟨p, hp, hpr⟩
        split at hpr
        · exact hne hpr.symm
        · exact hbefore (.inr (hpr ▸ hp))
  · rw [follow_of_not_references (by simpa using href)]
    exact h

/-- A third token that followed some sources into the survivor mentions none of them. -/
theorem not_mentions_followInto (hkeep : IsClean keep) (hclean : ∀ p ∈ sources, IsClean p)
    (hout : keep ∉ sources) (hthird : t.path ∉ sources) (hr : r ∈ sources) :
    (t.followInto keep sources).mentions r = false := by
  have hother : ∀ p ∈ sources, p ≠ keep := fun p hp heq => hout (heq ▸ hp)
  -- The induction is on the sources in the order in which they are followed, last one first.
  induction sources using List.reverseRecOn with
  | nil => cases hr
  | append_singleton before source ih =>
    rw [followInto_append_singleton]
    by_cases hlast : r = source
    · subst hlast
      refine not_mentions_follow hkeep (hother r hr) ?_
      rw [followInto_path]
      exact fun heq => hthird (heq ▸ hr)
    · have hbefore : r ∈ before := by
        rcases List.mem_append.mp hr with hmem | hmem
        · exact hmem
        · exact absurd (List.mem_singleton.mp hmem) hlast
      have hsub : ∀ p ∈ before, p ∈ before ++ [source] := fun p => List.mem_append_left _
      have hstep := ih (fun p hp => hclean p (hsub p hp)) (fun hmem => hout (hsub _ hmem))
        (fun hmem => hthird (hsub _ hmem)) hbefore fun p hp => hother p (hsub p hp)
      exact not_mentions_follow_of_not_mentions hkeep (hclean r hr) (hother r hr) hstep

end Token

namespace Store

variable {s s' : OpenStore} {k u : Token} {sources : List String}

/-! ## References to what went -/

/-- After a merge with clean targets only the survivor can refer to what was merged into it. -/
theorem not_references_iff (hk : k ∈ s.tokens)
    (hclean : ∀ p ∈ k.path :: sources, Reference.IsClean p) (hout : k.path ∉ sources)
    (htokens : s'.tokens = s.foldedTokens k sources) :
    (∀ t ∈ s'.tokens, ∀ u ∈ s.merged sources, t.references u.path = false) ↔
      ∀ u ∈ s.merged sources, (k.absorb [] (s.merged sources)).references u.path = false := by
  rw [htokens]
  constructor
  · intro h
    exact folded_survivor s k sources ▸ h _ (folded_mem_foldedTokens k hk hout)
  · intro h t ht v hv
    rcases List.mem_map.mp ht with ⟨u, hu, rfl⟩
    by_cases hpath : u.path = k.path
    · rw [folded, if_pos hpath]
      exact h v hv
    · rw [folded_third s sources hpath]
      -- A third token follows all that was merged.
      have hmem : v.path ∈ (s.merged sources).map Token.path := List.mem_map_of_mem hv
      have hu' : u.path ∉ (s.merged sources).map Token.path := by
        intro hmem
        simpa [(mem_paths_merged.mp hmem).1] using (List.mem_filter.mp hu).2
      have hkeep : k.path ∉ (s.merged sources).map Token.path :=
        fun hmem => hout (mem_paths_merged.mp hmem).1
      have hsources : ∀ p ∈ (s.merged sources).map Token.path, Reference.IsClean p :=
        fun p hp => hclean p (List.mem_cons_of_mem _ (mem_paths_merged.mp hp).1)
      apply Token.not_references_of_not_mentions
      exact Token.not_mentions_followInto (hclean _ List.mem_cons_self) hsources hkeep hu' hmem

/-- A survivor that is one whole reference to a source whose value names no source refers to no
source in the end. -/
theorem not_references_absorb_of_whole (hclean : ∀ p ∈ sources, Reference.IsClean p)
    (hu : u ∈ s.merged sources) (hwhole : k.dependence s.contains = .whole u.path)
    (hplain : ∀ v ∈ s.merged sources, u.mentions v.path = false) :
    ∀ v ∈ s.merged sources, (k.absorb [] (s.merged sources)).references v.path = false := by
  have hother : ∀ v ∈ s.merged sources, v.path ≠ u.path → k.references v.path = false := by
    intro v hv hne
    have hpath := mem_paths_merged.mp (List.mem_map_of_mem (f := Token.path) hv)
    exact Bool.eq_false_iff.mpr fun href =>
      hne (Token.eq_of_references_of_whole hwhole (hclean _ hpath.1) href)
  have hsame : ∀ v ∈ s.merged sources, v.path = u.path → v = u := by
    intro v hv hpath
    exact eq_of_path_eq (mem_tokens_of_merged hv) (mem_tokens_of_merged hu) hpath
  rw [Token.absorb_of_whole hwhole hu hsame (by simpa using hother) (by simpa using hplain)]
  exact fun v hv => Token.not_references_takeIn hwhole (hother v hv) (hplain v hv)

/-- What a merge with a survivor and at least one source leaves.  The paths that disappear are those
of the operations that succeed, and these are all sources that were there; so the survivor stays
exactly if it is not one of its own sources.

If it stays and the targets are clean, then no token that is left refers to a path that disappeared
exactly if the survivor does not, once it has taken in the sources one after the other.  It does not
if it referred to no source before, or if it was one whole reference to a source whose value names
no source. -/
theorem survivor_of_merge {a : Action} (hkind : a.kind = .merge)
    (htargets : a.targets = k.path :: sources) (hsources : sources ≠ []) (hk : k ∈ s.tokens) :
    ∃ s' ops, s.runAction false a = (s', .ok ops) ∧ ops.map Operation.path = sources ∧
      (s'.paths = s.paths.filter fun p => !sources.contains p) ∧
      (∀ p, (∃ op ∈ ops, op.succeeded = true ∧ op.path = p) ↔ p ∈ s.paths ∧ p ∉ s'.paths) ∧
      (k.path ∈ s'.paths ↔ k.path ∉ sources) ∧
      (k.path ∉ sources → (∀ p ∈ a.targets, Reference.IsClean p) →
        ((∀ t ∈ s'.tokens, ∀ p ∈ s.paths, p ∉ s'.paths → t.references p = false) ↔
          ∀ u ∈ s.merged sources, (k.absorb [] (s.merged sources)).references u.path = false) ∧
        ((∀ u ∈ s.merged sources, k.references u.path = false) ∨
          (∃ u ∈ s.merged sources, k.dependence s.contains = .whole u.path ∧
            ∀ v ∈ s.merged sources, u.mentions v.path = false) →
          ∀ t ∈ s'.tokens, ∀ p ∈ s.paths, p ∉ s'.paths → t.references p = false)) := by
  rcases exists_targetRun (exists_mergeSource false k.path) sources s with ⟨s', ops, hrun⟩
  rcases paths_of_mergeRun hrun with ⟨hops, hpaths, hiff⟩
  refine ⟨s', ops, ?_, hops, hpaths, fun p => ?_, ?_, fun hout hclean => ?_⟩
  · rw [runAction_merge hkind htargets hsources (path_mem_paths hk)]
    exact forTargets_eq_ok_iff.mpr hrun
  · rw [hiff, ← mem_paths_merged_iff hpaths, mem_paths_merged]
  · rw [hpaths, List.mem_filter]
    simp [path_mem_paths hk]
  · rw [htargets] at hclean
    have htokens := tokens_of_mergeRun hk hout hrun
    have hall : (∀ t ∈ s'.tokens, ∀ p ∈ s.paths, p ∉ s'.paths → t.references p = false) ↔
        ∀ t ∈ s'.tokens, ∀ u ∈ s.merged sources, t.references u.path = false := by
      refine forall₂_congr fun t _ => ?_
      simp only [← and_imp, ← mem_paths_merged_iff hpaths, List.forall_mem_map]
    rw [hall, not_references_iff hk hclean hout htokens]
    refine ⟨Iff.rfl, fun hsafe => ?_⟩
    rcases hsafe with hfree | ⟨u, hu, hwhole, hplain⟩
    · rw [Token.absorb_of_untouched hfree]
      exact hfree
    · have hsourceClean : ∀ p ∈ sources, Reference.IsClean p :=
        fun p hp => hclean p (List.mem_cons_of_mem _ hp)
      exact not_references_absorb_of_whole hsourceClean hu hwhole hplain

/-- A colour and a token that refers to it. -/
def colourAndReferrer : OpenStore :=
  ⟨[{ path := "a", value := .color "#fff" }, { path := "b", value := .text "\x7ba\x7d" }],
    by decide⟩

/-- A shadow with a reference to a token that refers to itself. -/
def selfNamedSource : OpenStore :=
  ⟨[{ path := "background.surface.accent"
      value := .text "0 0 2px \x7bbackground.action.accent\x7d" },
    { path := "background.action.accent", value := .text "\x7bbackground.action.accent\x7d" }],
    by decide⟩

/-- A token that is merged into itself is removed, and a reference to it stays behind.  And a
survivor that takes in the value of a source that names itself refers to the removed source. -/
theorem survivor_of_merge_removedOrDangling :
    (∃ (a : Action) (s' : OpenStore) (ops : List Operation), a.kind = .merge ∧
      a.targets = ["a", "a"] ∧ colourAndReferrer.runAction false a = (s', .ok ops) ∧
      (∃ op ∈ ops, op.succeeded = true ∧ op.path = "a") ∧ "a" ∉ s'.paths ∧
      ∃ t ∈ s'.tokens, t.references "a" = true) ∧
    ∃ (a : Action) (s' : OpenStore) (ops : List Operation), a.kind = .merge ∧
      a.targets = ["background.surface.accent", "background.action.accent"] ∧
      selfNamedSource.runAction false a = (s', .ok ops) ∧ "background.surface.accent" ∈ s'.paths ∧
      ∃ t ∈ s'.tokens, ∃ p ∈ selfNamedSource.paths, p ∉ s'.paths ∧ t.references p = true := by
  constructor
  · let a : Action := { id := "t.1", kind := .merge, description := "", targets := ["a", "a"] }
    let k : Token := colourAndReferrer.tokens[0]
    have hk : k ∈ colourAndReferrer.tokens := List.getElem_mem _
    have htargets : a.targets = k.path :: ["a"] := rfl
    rcases survivor_of_merge rfl htargets (by decide) hk with
      ⟨s', ops, hrun, _, _, hiff, hstays, _⟩
    have hgone : "a" ∉ s'.paths := fun h => hstays.mp h (by decide)
    refine ⟨a, s', ops, rfl, rfl, hrun, (hiff "a").mpr ⟨by decide, hgone⟩, hgone, ?_⟩
    have hs' : s' = (colourAndReferrer.runAction false a).1 := by rw [hrun]
    rw [hs']
    decide +kernel
  · let a : Action :=
      { id := "t.1", kind := .merge, description := ""
        targets := ["background.surface.accent", "background.action.accent"] }
    let k : Token := selfNamedSource.tokens[0]
    have hk : k ∈ selfNamedSource.tokens := List.getElem_mem _
    have htargets : a.targets = k.path :: ["background.action.accent"] := rfl
    have hout : k.path ∉ ["background.action.accent"] := by decide
    rcases survivor_of_merge rfl htargets (by decide) hk with
      ⟨s', ops, hrun, _, _, _, hstays, hsafe⟩
    refine ⟨a, s', ops, rfl, rfl, hrun, hstays.mpr hout, ?_⟩
    by_contra hnone
    have hall : ∀ t ∈ s'.tokens, ∀ p ∈ selfNamedSource.paths, p ∉ s'.paths →
        t.references p = false := by
      intro t ht p hp hgone
      exact Bool.eq_false_iff.mpr fun href => hnone ⟨t, ht, p, hp, hgone, href⟩
    have habsorbed := (hsafe hout (by decide +kernel)).1.mp hall
    revert habsorbed
    decide +kernel

end Store

end DesignTokens
