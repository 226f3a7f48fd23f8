import DesignTokens.Migration.Plan
import DesignTokens.Proofs.Store.Tokens
import DesignTokens.Proofs.Text.Ordered
import Mathlib.Data.List.Flatten

/-!
# What an audit finds

The findings that plans are drawn from speak about the paths of the audited store.  Sources of
suggestions, compliant paths to rebuild, redundant paths and orphans stand in the store, each once;
targets of suggestions and unresolved paths do not.  `Findings.DrawnFrom` collects these facts, so
that a plan can be followed without looking into the audit again.
-/

namespace DesignTokens

variable {α : Type} [Scalar α] {locked : String → Bool}

/-! ## Suggestions -/

namespace Suggestion

variable {g : Naming.Grading α} {path : String} {c : Suggestion α}

theorem ofPath?_eq_some (h : ofPath? g path = some c) :
    c.source = path ∧ Naming.strict? path = none ∧ Naming.suggestedPath? path = some c.target := by
  unfold ofPath? at h
  split at h
  · cases h
  · next r hr =>
    split at h
    · cases h
    · next hstrategy =>
      cases h
      refine ⟨rfl, ?_, by rw [Naming.suggestedPath?, hr]; rfl⟩
      unfold Naming.read? at hr
      split at hr
      · cases hr
        exact absurd rfl hstrategy
      · assumption

end Suggestion

namespace Store

variable (s : Store locked) (g : Naming.Grading α) (least : α)

theorem sources_candidates_perm : ∃ sources : List String, sources.Sublist s.paths ∧
    ((s.candidates g least).map Suggestion.source).Perm sources := by
  refine ⟨_, ?_, (List.mergeSort_perm _ _).map Suggestion.source⟩
  have hmap := Text.map_filterMap_sublist (f := Suggestion.ofPath? g)
    (g := Suggestion.source) (k := id) (fun _ _ h => (Suggestion.ofPath?_eq_some h).1) s.paths
  rw [List.map_id] at hmap
  exact (List.filter_sublist.map _).trans hmap

/-- A candidate leads from a path that cannot be read strictly to what it is read as. -/
theorem of_mem_candidates {c : Suggestion α} (h : c ∈ s.candidates g least) :
    Naming.strict? c.source = none ∧ Naming.suggestedPath? c.source = some c.target := by
  have hmem := (List.mergeSort_perm _ _).mem_iff.mp h
  rcases List.mem_filterMap.mp (List.mem_filter.mp hmem).1 with ⟨path, _, hpath⟩
  rcases Suggestion.ofPath?_eq_some hpath with ⟨rfl, hread⟩
  exact hread

/-- The suggestions are some of the candidates, with free and distinct targets. -/
theorem suggestions_spec :
    (s.suggestions g least).Sublist (s.candidates g least) ∧
      ((s.suggestions g least).map Suggestion.target).Nodup ∧
      ∀ c ∈ s.suggestions g least, c.target ∉ s.paths := by
  -- The candidates come one by one, and one is kept if its target is still free.
  have hfold : ∀ rest kept : List (Suggestion α), (kept.map Suggestion.target).Nodup →
      (∀ c ∈ kept, c.target ∉ s.paths) →
      let result := rest.foldl (fun kept c =>
        if c.target = c.source || s.contains c.target || kept.any (fun k => k.target == c.target)
        then kept else kept ++ [c]) kept
      result.Sublist (kept ++ rest) ∧ (result.map Suggestion.target).Nodup ∧
        ∀ c ∈ result, c.target ∉ s.paths := by
    intro rest
    induction rest with
    | nil =>
      intro kept hnodup hfree
      exact ⟨by simp, hnodup, hfree⟩
    | cons c rest ih =>
      intro kept hnodup hfree
      rw [List.foldl_cons]
      split
      · rcases ih kept hnodup hfree with ⟨hsub, hrest⟩
        exact ⟨hsub.trans ((List.sublist_cons_self c rest).append_left kept), hrest⟩
      · next htaken =>
        simp only [Bool.or_eq_true, decide_eq_true_eq, not_or, List.any_eq_true, beq_iff_eq,
          not_exists, not_and] at htaken
        rcases htaken with ⟨⟨_, hstore⟩, hkept⟩
        -- The target of a suggestion that is kept is new, in the store and among the others.
        have hnodup' : ((kept ++ [c]).map Suggestion.target).Nodup := by
          rw [List.map_append, List.nodup_append]
          refine ⟨hnodup, by simp, ?_⟩
          rintro p hp q hq rfl
          rcases List.mem_map.mp hp with ⟨k, hk, hkp⟩
          exact hkept k hk (hkp.trans (List.mem_singleton.mp hq))
        have hfree' : ∀ k ∈ kept ++ [c], k.target ∉ s.paths := by
          intro k hk
          rcases List.mem_append.mp hk with hk | hk
          · exact hfree k hk
          · rw [List.mem_singleton.mp hk]
            exact fun hmem => hstore (contains_iff.mpr hmem)
        rcases ih (kept ++ [c]) hnodup' hfree' with ⟨hsub, hrest⟩
        exact ⟨by simpa using hsub, hrest⟩
  exact hfold (s.candidates g least) [] List.nodup_nil fun _ h => absurd h List.not_mem_nil

/-- The suggestions start from different paths of the store. -/
theorem sources_suggestions : ((s.suggestions g least).map Suggestion.source).Nodup ∧
    ∀ c ∈ s.suggestions g least, c.source ∈ s.paths := by
  rcases s.suggestions_spec g least with ⟨hsub, _⟩
  rcases s.sources_candidates_perm g least with ⟨sources, hsources, hperm⟩
  constructor
  · exact (hsub.map _).nodup (hperm.nodup_iff.mpr (hsources.nodup s.nodup_paths))
  · intro c hc
    have hmem := List.mem_map_of_mem (f := Suggestion.source) (hsub.subset hc)
    exact hsources.subset (hperm.mem_iff.mp hmem)

end Store

/-! ## Patterns and their detectors -/

namespace PatternReport

variable {ps qs : List AntiPattern}

theorem redundantGroups_append (ps qs : List AntiPattern) :
    redundantGroups ⟨ps ++ qs⟩ = redundantGroups ⟨ps⟩ ++ redundantGroups ⟨qs⟩ := by
  simp [redundantGroups]

theorem missingVariants_append (ps qs : List AntiPattern) :
    missingVariants ⟨ps ++ qs⟩ = missingVariants ⟨ps⟩ ++ missingVariants ⟨qs⟩ := by
  simp [missingVariants]

/-- Other patterns add no redundant groups. -/
theorem redundantGroups_eq_nil (h : ∀ p ∈ ps, p.id ≠ "redundant-tokens") :
    redundantGroups ⟨ps⟩ = [] := by
  refine List.filterMap_eq_nil_iff.mpr fun p hp => ?_
  cases p with
  | redundantTokens _ _ _ _ => exact absurd rfl (h _ hp)
  | _ => rfl

/-- Other patterns add no missing variants. -/
theorem missingVariants_eq_nil (h : ∀ p ∈ ps, p.id ≠ "missing-variant") :
    missingVariants ⟨ps⟩ = [] := by
  refine List.filterMap_eq_nil_iff.mpr fun p hp => ?_
  cases p with
  | missingVariant _ _ => exact absurd rfl (h _ hp)
  | _ => rfl

end PatternReport

namespace Store

variable {s : Store locked} {named : List NamedToken} {p : AntiPattern}

theorem id_of_mem_leakages (h : p ∈ named.filterMap leakage?) : p.id = "primitive-leakage" := by
  rcases List.mem_filterMap.mp h with ⟨t, _, ht⟩
  unfold leakage? at ht
  split at ht
  · cases ht
  · dsimp only at ht
    split at ht
    · cases ht
      rfl
    · cases ht

theorem id_of_mem_inconsistencies (h : p ∈ inconsistencies named) :
    p.id = "naming-inconsistency" := by
  rcases List.mem_filterMap.mp h with ⟨group, _, hgroup⟩
  dsimp only at hgroup
  split at hgroup
  · cases hgroup
  · cases hgroup
    rfl

theorem id_of_mem_redundancies (h : p ∈ s.redundancies named) : p.id = "redundant-tokens" := by
  rcases List.mem_filterMap.mp h with ⟨group, _, hgroup⟩
  dsimp only at hgroup
  split at hgroup
  · split at hgroup
    · cases hgroup
    · cases hgroup
      rfl
  · cases hgroup

theorem id_of_mem_drifts {keywords : List String} {threshold : Nat}
    (h : p ∈ keywords.filterMap (s.drift? threshold)) : p.id = "semantic-drift" := by
  rcases List.mem_filterMap.mp h with ⟨keyword, _, hkeyword⟩
  unfold drift? at hkeyword
  dsimp only at hkeyword
  split at hkeyword
  · cases hkeyword
  · split at hkeyword
    · cases hkeyword
    · cases hkeyword
      rfl

theorem id_of_mem_hoversOnly (h : p ∈ hoversOnly named) : p.id = "missing-variant" := by
  rcases List.mem_filterMap.mp h with ⟨group, _, hgroup⟩
  dsimp only at hgroup
  split at hgroup
  · cases hgroup
    rfl
  · cases hgroup

/-- Only the value groups of an audit count as redundant. -/
theorem redundantGroups_antiPatterns (s : Store locked) (keywords : List String)
    (threshold : Nat) :
    (s.antiPatterns keywords threshold).redundantGroups =
      PatternReport.redundantGroups ⟨s.redundancies s.named⟩ := by
  have hnone : ∀ (ps : List AntiPattern) (id : String), (∀ p ∈ ps, p.id = id) →
      id ≠ "redundant-tokens" → PatternReport.redundantGroups ⟨ps⟩ = [] :=
    fun ps id hps hid => PatternReport.redundantGroups_eq_nil fun p hp => hps p hp ▸ hid
  unfold antiPatterns
  dsimp only
  rw [PatternReport.redundantGroups_append, PatternReport.redundantGroups_append,
    PatternReport.redundantGroups_append, PatternReport.redundantGroups_append,
    hnone _ _ (fun _ => id_of_mem_leakages) (by decide),
    hnone _ _ (fun _ => id_of_mem_inconsistencies) (by decide),
    hnone _ _ (fun _ => id_of_mem_drifts) (by decide),
    hnone _ _ (fun _ => id_of_mem_hoversOnly) (by decide)]
  simp

/-- Only the groups of hover states of an audit miss a variant. -/
theorem missingVariants_antiPatterns (s : Store locked) (keywords : List String)
    (threshold : Nat) :
    (s.antiPatterns keywords threshold).missingVariants =
      PatternReport.missingVariants ⟨hoversOnly s.named⟩ := by
  have hnone : ∀ (ps : List AntiPattern) (id : String), (∀ p ∈ ps, p.id = id) →
      id ≠ "missing-variant" → PatternReport.missingVariants ⟨ps⟩ = [] :=
    fun ps id hps hid => PatternReport.missingVariants_eq_nil fun p hp => hps p hp ▸ hid
  unfold antiPatterns
  dsimp only
  rw [PatternReport.missingVariants_append, PatternReport.missingVariants_append,
    PatternReport.missingVariants_append, PatternReport.missingVariants_append,
    hnone _ _ (fun _ => id_of_mem_leakages) (by decide),
    hnone _ _ (fun _ => id_of_mem_inconsistencies) (by decide),
    hnone _ _ (fun _ => id_of_mem_redundancies) (by decide),
    hnone _ _ (fun _ => id_of_mem_drifts) (by decide)]
  simp

/-- Without hover states no variant is missing. -/
theorem hoversOnly_eq_nil (h : ∀ t ∈ named, t.name.effectiveState ≠ .hover) :
    hoversOnly named = [] := by
  refine List.filterMap_eq_nil_iff.mpr fun group hgroup => if_neg fun hall => ?_
  rcases Text.exists_mem_of_mem_groupBy hgroup with ⟨t, ht, hmem⟩
  have hhover := List.all_eq_true.mp hall t hmem
  exact h t ht (by simpa using hhover)

/-! ## Redundant groups -/

/-- The redundant groups are the value groups of the readable tokens, as far as they have two
members. -/
theorem redundantGroups_redundancies (s : Store locked) (named : List NamedToken) :
    let keyed := named.filterMap fun t => (s.valueKey? t).map fun v => (t, v)
    (PatternReport.redundantGroups ⟨s.redundancies named⟩).Sublist
      ((Text.groupBy (fun m : NamedToken × String =>
        [m.1.name.propertyClass.id, m.1.name.intent.id, m.2]) keyed).map
          fun group => group.2.map fun m => m.1.path) := by
  intro keyed
  unfold redundancies PatternReport.redundantGroups
  dsimp only
  rw [List.filterMap_filterMap]
  refine Text.filterMap_sublist_map (fun group paths hpaths => ?_) _
  rcases Option.bind_eq_some_iff.mp hpaths with ⟨pattern, hpattern, hpaths⟩
  split at hpattern
  · split at hpattern
    · cases hpattern
    · cases hpattern
      exact (Option.some.inj hpaths).symm
  · cases hpattern

theorem paths_named_sublist (s : Store locked) :
    (s.named.map NamedToken.path).Sublist s.paths := by
  refine Text.map_filterMap_sublist (fun t n h => ?_) s.tokens
  rcases Option.map_eq_some_iff.mp h with ⟨r, _, rfl⟩
  rfl

/-- No path is in two redundant groups, or twice in one, and all of them are in the store. -/
theorem flatten_redundantGroups (s : Store locked) (keywords : List String) (threshold : Nat) :
    (s.antiPatterns keywords threshold).redundantGroups.flatten.Nodup ∧
      ∀ p ∈ (s.antiPatterns keywords threshold).redundantGroups.flatten, p ∈ s.paths := by
  rw [redundantGroups_antiPatterns]
  have hsub := s.redundantGroups_redundancies s.named
  dsimp only at hsub
  have hkeyed := Text.map_filterMap_sublist (g := fun m : NamedToken × String => m.1.path)
    (k := NamedToken.path) (f := fun t => (s.valueKey? t).map fun v => (t, v))
    (fun t m h => by
      rcases Option.map_eq_some_iff.mp h with ⟨v, _, rfl⟩
      rfl) s.named
  have hpaths := hkeyed.trans s.paths_named_sublist
  refine ⟨hsub.flatten.nodup (Text.nodup_flatten_groupBy (hpaths.nodup s.nodup_paths)), ?_⟩
  intro p hp
  rcases List.mem_flatten.mp (hsub.flatten.subset hp) with ⟨paths, hpathsMem, hmem⟩
  rcases List.mem_map.mp hpathsMem with ⟨group, hgroup, rfl⟩
  rw [Text.eq_filter_of_mem_groupBy hgroup] at hmem
  exact hpaths.subset ((List.filter_sublist.map _).subset hmem)

end Store

/-! ## Orphans -/

namespace LinkGraph

/-- Every orphan is a node, and each is reported once. -/
theorem orphans_sublist (g : LinkGraph) (t : LinkThresholds) :
    ((g.report t).defects.filterMap fun
      | .orphaned path => some path
      | _ => none).Sublist g.nodes := by
  -- One node has at most one defect of this kind.
  have hnodes : ∀ nodes : List NodeReport,
      ((nodes.flatMap (nodeDefects t g.nodes.length)).filterMap fun
        | .orphaned path => some path
        | _ => none).Sublist (nodes.map NodeReport.path) := by
    intro nodes
    induction nodes with
    | nil => exact .slnil
    | cons n nodes ih =>
      rw [List.flatMap_cons, List.filterMap_append, List.map_cons, ← List.singleton_append]
      refine List.Sublist.append ?_ ih
      unfold nodeDefects
      split <;> split <;> simp
  have hpaths : (g.nodes.map (g.nodeReport g.survey)).map NodeReport.path = g.nodes := by
    simp [Function.comp_def, nodeReport]
  have hsub := hnodes (g.nodes.map (g.nodeReport g.survey))
  rw [hpaths] at hsub
  simpa [report, List.filterMap_append, List.filterMap_map, Function.comp_def] using hsub

/-- In a small store nothing counts as orphaned. -/
theorem orphans_eq_nil (g : LinkGraph) {t : LinkThresholds}
    (h : g.nodes.length ≤ t.orphanStoreSize) :
    ((g.report t).defects.filterMap fun
      | .orphaned path => some path
      | _ => none) = [] := by
  refine List.filterMap_eq_nil_iff.mpr fun defect hdefect => ?_
  rcases List.mem_append.mp hdefect with hearly | hnode
  · rcases List.mem_append.mp hearly with hlink | hcycle
    · rcases List.mem_map.mp hlink with ⟨_, _, rfl⟩
      rfl
    · rcases List.mem_map.mp hcycle with ⟨_, _, rfl⟩
      rfl
  · rcases List.mem_flatMap.mp hnode with ⟨n, _, hdefects⟩
    simp only [nodeDefects, Nat.not_lt.mpr h, decide_false, Bool.and_false, Bool.false_eq_true,
      if_false, List.append_nil] at hdefects
    split at hdefects
    · rw [List.mem_singleton.mp hdefects]
    · cases hdefects

end LinkGraph

/-! ## The findings -/

/-- What the findings of an audit have to do with the store that was audited. -/
structure Findings.DrawnFrom (f : Findings α) (s : Store locked) : Prop where
  unresolved_nodup : f.unresolved.Nodup
  unresolved_free : ∀ p ∈ f.unresolved, p ∉ s.paths
  sources_nodup : (f.suggestions.map Suggestion.source).Nodup
  source_mem : ∀ c ∈ f.suggestions, c.source ∈ s.paths
  source_unread : ∀ c ∈ f.suggestions, Naming.strict? c.source = none
  targets_nodup : (f.suggestions.map Suggestion.target).Nodup
  target_free : ∀ c ∈ f.suggestions, c.target ∉ s.paths
  safe_sublist : f.safe.Sublist f.suggestions
  nonCanonical_sublist : (f.nonCanonical.map Prod.fst).Sublist s.paths
  nonCanonical_iff : ∀ p q, (p, q) ∈ f.nonCanonical ↔
    p ∈ s.paths ∧ q ≠ p ∧ ∃ n, Naming.strict? p = some n ∧ n.path = q
  gaps_eq : f.gaps = s.coverage.gaps.map CoverageCell.suggestedPath
  redundant_nodup : f.redundant.flatten.Nodup
  redundant_mem : ∀ p ∈ f.redundant.flatten, p ∈ s.paths
  orphans_sublist : f.orphans.Sublist s.paths

theorem Findings.mem_canonicalFor? {p path q : String} :
    canonicalFor? path = some (p, q) ↔
      p = path ∧ q ≠ p ∧ ∃ n, Naming.strict? path = some n ∧ n.path = q := by
  unfold canonicalFor?
  cases hstrict : Naming.strict? path with
  | none => simp
  | some n =>
    by_cases hn : n.path = path
    · simp only [hn, if_true, reduceCtorEq, Option.some.injEq, false_iff]
      intro hpair
      rcases hpair with ⟨rfl, hne, _, rfl, rfl⟩
      exact hne hn
    · simp only [hn, if_false, Option.some.injEq, Prod.mk.injEq]
      constructor
      · intro hpair
        rcases hpair with ⟨rfl, rfl⟩
        exact ⟨rfl, hn, n, rfl, rfl⟩
      · intro hpair
        rcases hpair with ⟨rfl, _, _, rfl, rfl⟩
        exact ⟨rfl, rfl⟩

/-- The findings of an audit are drawn from the audited store. -/
theorem Findings.drawnFrom_ofAudit (s : Store locked) (c : Settings α) (check : ContrastChecker α)
    (safeRename : α) : (Findings.ofAudit (s.auditWith c check) safeRename).DrawnFrom s := by
  have hnodes : (s.auditWith c check).links.nodes.map NodeReport.path = s.paths := by
    simp [Store.auditWith, Store.audit, Store.linkReport, LinkGraph.report, Store.graph,
      Function.comp_def, LinkGraph.nodeReport]
  -- The nodes of the link report are the paths of the store, in their order.
  have hnonCanonical : (Findings.ofAudit (s.auditWith c check) safeRename).nonCanonical =
      s.paths.filterMap canonicalFor? := by
    rw [← hnodes, List.filterMap_map]
    rfl
  rcases s.suggestions_spec c.grading c.audit.minConfidence with ⟨hsub, htargets, hfree⟩
  rcases s.sources_suggestions c.grading c.audit.minConfidence with ⟨hsources, hsourceMem⟩
  rcases s.flatten_redundantGroups c.audit.driftKeywords c.audit.driftThreshold with
    ⟨hredundant, hredundantMem⟩
  exact
    { unresolved_nodup := Text.nodup_sorted _
      unresolved_free := by
        intro p hp
        rcases List.mem_map.mp (Text.mem_sorted.mp hp) with ⟨l, hl, rfl⟩
        rcases List.mem_filter.mp hl with ⟨hlink, hunresolved⟩
        rcases List.mem_flatMap.mp hlink with ⟨t, _, ht⟩
        rcases List.mem_map.mp ht with ⟨target, _, rfl⟩
        exact Store.contains_eq_false_iff.mp (by simpa using hunresolved)
      sources_nodup := hsources
      source_mem := hsourceMem
      source_unread := fun x hx => (s.of_mem_candidates _ _ (hsub.subset hx)).1
      targets_nodup := htargets
      target_free := hfree
      safe_sublist := List.filter_sublist
      nonCanonical_sublist := by
        rw [hnonCanonical]
        have hmap := Text.map_filterMap_sublist (g := Prod.fst) (k := id)
          (fun path b h => (mem_canonicalFor? (p := b.1) (q := b.2) |>.mp h).1) s.paths
        rwa [List.map_id] at hmap
      nonCanonical_iff := by
        intro p q
        rw [hnonCanonical, List.mem_filterMap]
        constructor
        · intro hpair
          rcases hpair with ⟨path, hpath, hcanonical⟩
          rcases mem_canonicalFor?.mp hcanonical with ⟨rfl, hne, hn⟩
          exact ⟨hpath, hne, hn⟩
        · intro hpair
          rcases hpair with ⟨hpath, hne, hn⟩
          exact ⟨p, hpath, mem_canonicalFor?.mpr ⟨rfl, hne, hn⟩⟩
      gaps_eq := rfl
      redundant_nodup := hredundant
      redundant_mem := hredundantMem
      orphans_sublist := s.graph.orphans_sublist c.links }

end DesignTokens
