import DesignTokens.Proofs.Migration.Folding
import DesignTokens.Proofs.Store.Needs

/-!
# What a merge leaves untouched

A merge takes paths away, and it rewrites the tokens that refer to one of them.  All other tokens
stay as they are, so what leads neither to a lost path nor to a rewritten token comes to the value
that it came to before.  A rewritten token has no resolved value.
-/

namespace DesignTokens

open Relation

namespace Token

variable {t u : Token} {keep source : String} {sources done : List String} {us : List Token}
  {v : Value}

/-! ## Tokens that keep their resolved value -/

theorem resolved_redirect_of_mentions (h : t.mentions source = true) :
    (t.redirect source keep).resolved = none := by
  rcases exists_redirect? h keep with ⟨y, y', hy, hy', _⟩
  rw [redirect_of_redirect? hy hy']

theorem resolved_followInto_of_none (h : t.resolved = none) :
    (t.followInto keep sources).resolved = none := by
  induction sources generalizing t with
  | nil => exact h
  | cons source sources ih =>
    rw [followInto_cons]
    apply ih
    unfold follow
    split
    · next href => exact resolved_redirect_of_mentions (references_iff.mp href).2
    · exact h

/-- A token that still has a resolved value after following some sources refers to none of them. -/
theorem not_references_of_resolved_followInto
    (h : (t.followInto keep sources).resolved = some v) :
    ∀ m ∈ sources, t.references m = false := by
  induction sources with
  | nil => exact fun m hm => absurd hm List.not_mem_nil
  | cons source sources ih =>
    rw [followInto_cons] at h
    have hfree : t.references source = false := by
      rw [← Bool.not_eq_true]
      intro href
      have hnone : (t.follow source keep).resolved = none := by
        rw [follow, if_pos href]
        exact resolved_redirect_of_mentions (references_iff.mp href).2
      rw [resolved_followInto_of_none hnone] at h
      cases h
    rw [follow_of_not_references hfree] at h
    exact List.forall_mem_cons.mpr ⟨hfree, ih h⟩

theorem resolved_takeIn_of_references (h : t.references u.path = true) :
    (t.takeIn u).resolved = none := by
  rcases mentions_iff.mp (references_iff.mp h).2 with ⟨y, hy, _⟩
  rw [takeIn, if_pos h]
  simp only [inline, hy, Reference.substitute?_some]
  split <;> rfl

theorem resolved_absorb_of_none (h : t.resolved = none) : (t.absorb done us).resolved = none := by
  induction us generalizing t done with
  | nil => exact h
  | cons u us ih =>
    rw [absorb]
    apply ih
    by_cases href : t.references (u.followInto t.path done).path = true
    · exact resolved_takeIn_of_references href
    · rw [takeIn_of_not_references (by simpa using href)]
      exact h

/-- A survivor that still has a resolved value refers to none of the tokens that it took in. -/
theorem not_references_of_resolved_absorb (h : (t.absorb done us).resolved = some v) :
    ∀ u ∈ us, t.references u.path = false := by
  induction us generalizing done with
  | nil => exact fun u hu => absurd hu List.not_mem_nil
  | cons u us ih =>
    have hpath : (u.followInto t.path done).path = u.path := followInto_path _ _ _
    have hfree : t.references u.path = false := by
      rw [← Bool.not_eq_true, ← hpath]
      intro href
      rw [absorb, resolved_absorb_of_none (resolved_takeIn_of_references href)] at h
      cases h
    rw [absorb, takeIn_of_not_references (hpath ▸ hfree)] at h
    exact List.forall_mem_cons.mpr ⟨hfree, ih h⟩

end Token

namespace Store

variable {s s' : OpenStore} {k t : Token} {keep p q : String} {sources gone : List String}
  {ops : List Operation} {v : Value}

/-! ## Lost paths -/

/-- The paths of a store that another one does not have. -/
def lost (s s' : OpenStore) : List String := s.paths.filter fun p => !s'.contains p

theorem mem_lost : p ∈ s.lost s' ↔ p ∈ s.paths ∧ p ∉ s'.paths := by
  rw [lost, List.mem_filter, Bool.not_eq_true', contains_eq_false_iff]

/-- Nothing that a path leads to is gone or refers to what is gone, and neither is the path
itself. -/
def FarFrom (s : OpenStore) (gone : List String) (p : String) : Prop :=
  ∀ q, ReflTransGen s.Needs p q → q ∉ gone ∧ ¬ s.RefersToAny gone q

theorem FarFrom.of_needs (h : s.FarFrom gone p) (hq : s.Needs p q) : s.FarFrom gone q :=
  fun r hr => h r (.head hq hr)

/-- Some paths are lost, and the tokens that refer to none of them stay as they are.  Only these
have resolved values afterwards. -/
structure Reduced (s s' : OpenStore) : Prop where
  paths : s'.paths ⊆ s.paths
  kept : ∀ t ∈ s.tokens, t.path ∈ s'.paths → (∀ p ∈ s.lost s', t.references p = false) →
    t ∈ s'.tokens
  resolved : ∀ t ∈ s'.tokens, ∀ v, t.resolved = some v →
    t ∈ s.tokens ∧ ∀ p ∈ s.lost s', t.references p = false

namespace Reduced

theorem refl (s : OpenStore) : Reduced s s := by
  have hnone : ∀ p, p ∉ s.lost s := fun p hp => (mem_lost.mp hp).2 (mem_lost.mp hp).1
  exact ⟨List.Subset.refl _, fun t ht _ _ => ht, fun t ht _ _ =>
    ⟨ht, fun p hp => absurd hp (hnone p)⟩⟩

/-- What is not lost is there afterwards exactly if it was there before. -/
theorem contains_eq (h : Reduced s s') (hp : p ∉ s.lost s') : s'.contains p = s.contains p := by
  rw [Bool.eq_iff_iff, contains_iff, contains_iff]
  refine ⟨fun hmem => h.paths hmem, fun hmem => ?_⟩
  by_contra hgone
  exact hp (mem_lost.mpr ⟨hmem, hgone⟩)

/-- A token that is kept and refers to nothing that is lost stays as it is. -/
theorem untouched (h : Reduced s s') (ht : t ∈ s.tokens) (hout : t.path ∉ s.lost s')
    (hfree : ∀ q ∈ s.lost s', t.references q = false) :
    t ∈ s'.tokens ∧ t.dependence s'.contains = t.dependence s.contains := by
  have hpath : t.path ∈ s'.paths := by
    by_contra hgone
    exact hout (mem_lost.mpr ⟨path_mem_paths ht, hgone⟩)
  have htargets : t.targets s'.contains = t.targets s.contains := by
    refine Token.targets_congr fun q href => h.contains_eq fun hgone => ?_
    rw [hfree q hgone] at href
    cases href
  exact ⟨h.kept t ht hpath hfree, by rw [Token.dependence, htargets, Token.dependence]⟩

theorem untouched_of_far (h : Reduced s s') (ht : t ∈ s.tokens)
    (hfar : s.FarFrom (s.lost s') t.path) :
    t ∈ s'.tokens ∧ t.dependence s'.contains = t.dependence s.contains := by
  obtain ⟨hout, hfree⟩ := hfar t.path .refl
  exact h.untouched ht hout fun q hq =>
    Bool.eq_false_iff.mpr fun href => hfree ⟨t, ht, rfl, q, hq, href⟩

/-- What leads to no lost path and to no token that referred to one comes to the value that it came
to before. -/
theorem comesTo (h : Reduced s s') (hfar : s.FarFrom (s.lost s') p) (hv : s.ComesTo p v) :
    s'.ComesTo p v := by
  refine ComesTo.carried (P := s.FarFrom (s.lost s')) (fun t ht hfar => ?_) hfar hv
  obtain ⟨hkept, hsame⟩ := h.untouched_of_far ht hfar
  exact ⟨hkept, hsame, fun q hq => hfar.of_needs ((needs_iff_of_mem ht).mpr hq)⟩

end Reduced

/-! ## Merges -/

/-- A run loses what it merges. -/
theorem mem_lost_iff_merged (h : TargetRun (mergeSource false keep) sources s s' ops) :
    p ∈ s.lost s' ↔ p ∈ (s.merged sources).map Token.path := by
  rcases paths_of_mergeRun h with ⟨_, hpaths, _⟩
  rw [mem_lost, mem_paths_merged_iff hpaths]

/-- A token that still has a resolved value after some sources were folded in refers to none of
them. -/
theorem not_references_of_resolved_folded (hk : k ∈ s.tokens) (ht : t ∈ s.tokens)
    (h : (s.folded k sources t).resolved = some v) :
    ∀ u ∈ s.merged sources, t.references u.path = false := by
  by_cases hpath : t.path = k.path
  · obtain rfl := eq_of_path_eq ht hk hpath
    rw [folded_survivor] at h
    exact Token.not_references_of_resolved_absorb h
  · rw [folded_third s sources hpath] at h
    simpa using Token.not_references_of_resolved_followInto h

/-- Merging sources into a survivor that is none of them rewrites the tokens that refer to one, and
drops their resolved values. -/
theorem reduced_of_mergeRun (hk : k ∈ s.tokens) (hout : k.path ∉ sources)
    (h : TargetRun (mergeSource false k.path) sources s s' ops) : Reduced s s' := by
  have htokens := tokens_of_mergeRun hk hout h
  rcases paths_of_mergeRun h with ⟨_, hpaths, _⟩
  have hlost : ∀ t : Token, (∀ p ∈ s.lost s', t.references p = false) ↔
      ∀ u ∈ s.merged sources, t.references u.path = false := by
    intro t
    simp only [mem_lost_iff_merged h, List.forall_mem_map]
  refine ⟨?_, fun t ht hpath hfree => ?_, fun t ht v hv => ?_⟩
  · rw [hpaths]
    exact List.filter_subset_self _
  · have hthere : t.path ∉ sources := by
      rw [hpaths, List.mem_filter] at hpath
      simpa using hpath.2
    rw [htokens, ← folded_of_untouched hk ht ((hlost t).mp hfree)]
    exact folded_mem_foldedTokens k ht hthere
  · rw [htokens] at ht
    rcases List.mem_map.mp ht with ⟨u, hu, rfl⟩
    have hu' : u ∈ s.tokens := (List.mem_filter.mp hu).1
    have hfree := not_references_of_resolved_folded hk hu' hv
    rw [folded_of_untouched hk hu' hfree]
    exact ⟨hu', (hlost u).mpr hfree⟩

/-- A merge either goes through its sources or is refused. -/
theorem exists_merge (s : OpenStore) {a : Action} (hkind : a.kind = .merge) :
    ∃ s' ops, s.runAction false a = (s', .ok ops) ∧
      (s' = s ∨ ∃ k ∈ s.tokens, ∃ sources, a.targets = k.path :: sources ∧
        TargetRun (mergeSource false k.path) sources s s' ops) := by
  cases htargets : a.targets with
  | nil =>
    refine ⟨s, [{ kind := .merge, path := "", fault := some (.tooFewToMerge 0) }], ?_, .inl rfl⟩
    simp only [runAction, hkind, htargets, merge]
  | cons keep sources =>
    by_cases hsources : sources = []
    · subst hsources
      refine ⟨s, [{ kind := .merge, path := keep, fault := some (.tooFewToMerge 1) }], ?_, .inl rfl⟩
      simp only [runAction, hkind, htargets, merge]
    · by_cases hkeep : keep ∈ s.paths
      · rcases mem_paths.mp hkeep with ⟨k, hk, rfl⟩
        rcases exists_targetRun (exists_mergeSource false k.path) sources s with ⟨s', ops, hrun⟩
        refine ⟨s', ops, ?_, .inr ⟨k, hk, sources, rfl, hrun⟩⟩
        rw [runAction_merge hkind htargets hsources hkeep]
        exact forTargets_eq_ok_iff.mpr hrun
      · refine ⟨s, [{ kind := .merge, path := keep, fault := some (.survivorMissing keep) }], ?_,
          .inl rfl⟩
        rcases List.exists_cons_of_ne_nil hsources with ⟨source, rest, rfl⟩
        simp [runAction, hkind, htargets, merge, contains_eq_false_iff.mpr hkeep]

end Store

end DesignTokens
