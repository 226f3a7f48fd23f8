import DesignTokens.Proofs.Audit.Redundancy
import DesignTokens.Proofs.Migration.Coherence
import DesignTokens.Proofs.Store.Found

/-!
# Merging the groups of an audit

The members of a redundant group have values that are alike.  When they are merged, a path that led
to one of the sources leads to the survivor, and so it is found to have a value like the one that it
had.  It is the same value if the members of the group agree in their opacity.

This takes a survivor that does not come back to a target over a third token: its chain of
references would be closed to a cycle.
-/

namespace DesignTokens

open Reference Relation

namespace Store

variable {s s' : OpenStore} {k t u : Token} {p q : String} {sources : List String}
  {ops : List Operation} {v w : Value} {n m : Nat}

/-- What is found in a coherent store is what a resolution computes. -/
theorem Coherent.comesTo_of_found (hs : s.Coherent) (h : s.FoundAfter n p v) : s.ComesTo p v :=
  h.comesTo fun t ht v hv => computed?_eq_some_iff.mp (hs t ht v hv)

/-! ## Chains that a merge leaves alone -/

theorem needs_of_whole {target : String} (ht : t ∈ s.tokens)
    (hform : t.dependence s.contains = .whole target) : s.Needs t.path target :=
  (needs_iff_of_mem ht).mpr (by simp [Token.needs, hform])

/-- A path that leads to nothing that is lost or referred to it is found to have the value that it
had. -/
theorem Reduced.found_iff (h : Reduced s s') (hfar : s.FarFrom (s.lost s') p) :
    s'.FoundAfter n p v ↔ s.FoundAfter n p v := by
  constructor
  · intro hfound
    induction hfound with
    | @resolved t' v ht' hv =>
      exact .resolved (h.resolved t' ht' v hv).1 hv
    | @own t' ht' hfresh hform =>
      obtain ⟨t, ht, hpath⟩ := mem_paths.mp (h.paths (path_mem_paths ht'))
      obtain ⟨hkept, hsame⟩ := h.untouched_of_far ht (hpath ▸ hfar)
      obtain rfl := eq_of_path_eq hkept ht' hpath
      exact .own ht hfresh (hsame ▸ hform)
    | @link n t' target v ht' hfresh hform _ ih =>
      obtain ⟨t, ht, hpath⟩ := mem_paths.mp (h.paths (path_mem_paths ht'))
      obtain ⟨hkept, hsame⟩ := h.untouched_of_far ht (hpath ▸ hfar)
      obtain rfl := eq_of_path_eq hkept ht' hpath
      have hform' := hsame.symm.trans hform
      exact .link ht hfresh hform' (ih (hfar.of_needs (needs_of_whole ht hform')))
  · intro hfound
    induction hfound with
    | resolved ht hv => exact .resolved (h.untouched_of_far ht hfar).1 hv
    | own ht hfresh hform =>
      obtain ⟨hkept, hsame⟩ := h.untouched_of_far ht hfar
      exact .own hkept hfresh (hsame.trans hform)
    | link ht hfresh hform _ ih =>
      obtain ⟨hkept, hsame⟩ := h.untouched_of_far ht hfar
      exact .link hkept hfresh (hsame.trans hform) (ih (hfar.of_needs (needs_of_whole ht hform)))

/-! ## The survivor -/

/-- The targets can be folded into the first of them: it rests on none of them, or it is one whole
reference to one that rests on none. -/
structure Foldable (s : OpenStore) (targets : List String) : Prop where
  clean : ∀ p ∈ targets, IsClean p
  apart : ∀ k ∈ s.tokens, targets.head? = some k.path →
    (∀ p ∈ targets, ¬ TransGen s.Needs k.path p) ∨
      ∃ u ∈ s.tokens, u.path ∈ targets ∧ k.dependence s.contains = .whole u.path ∧
        u.mentions u.path = false ∧ ∀ p ∈ targets, ¬ TransGen s.Needs u.path p

section

variable (hclean : ∀ p ∈ k.path :: sources, IsClean p) (hu : u ∈ s.tokens)
  (hapart : ∀ p ∈ k.path :: sources, ¬ TransGen s.Needs u.path p)
include hclean hu hapart

/-- What leads to no target refers to none. -/
theorem references_eq_false_of_apart (hq : q ∈ k.path :: sources) (hmem : q ∈ s.paths) :
    u.references q = false :=
  Bool.eq_false_iff.mpr fun href =>
    hapart q hq (.single (.of_references hu (hclean q hq) hmem href))

/-- A survivor that is one whole reference to such a source takes in this source and no other. -/
theorem folded_of_whole (hk : k ∈ s.tokens) (hmem : u.path ∈ sources)
    (hwhole : k.dependence s.contains = .whole u.path) (hown : u.mentions u.path = false) :
    s.folded k sources k = { k with value := u.value, resolved := none } := by
  have hne : k.path ≠ u.path := by
    intro heq
    obtain rfl := eq_of_path_eq hk hu heq
    exact hapart _ List.mem_cons_self (.single (needs_of_whole hk hwhole))
  have hmerged : u ∈ s.merged sources := by
    obtain ⟨u', hu', hpath⟩ := List.mem_map.mp (mem_paths_merged.mpr ⟨hmem, path_mem_paths hu⟩)
    rwa [← eq_of_path_eq (mem_tokens_of_merged hu') hu hpath]
  have hplain : ∀ q ∈ (s.merged sources).map Token.path, u.mentions q = false := by
    intro q hq
    obtain ⟨hqs, hqmem⟩ := mem_paths_merged.mp hq
    by_cases hpath : u.path = q
    · rw [← hpath, hown]
    · refine Bool.eq_false_iff.mpr fun hmentions => ?_
      have href := Token.references_iff.mpr ⟨hpath, hmentions⟩
      rw [references_eq_false_of_apart hclean hu hapart (List.mem_cons_of_mem _ hqs) hqmem] at href
      cases href
  have hother : ∀ q ∈ (s.merged sources).map Token.path, q ≠ u.path → k.references q = false := by
    intro q hq hqu
    have hqclean := hclean q (List.mem_cons_of_mem _ (mem_paths_merged.mp hq).1)
    exact Bool.eq_false_iff.mpr fun href =>
      hqu (Token.eq_of_references_of_whole hwhole hqclean href)
  have hsame : ∀ v ∈ s.merged sources, v.path = u.path → v = u := fun v hv hpath =>
    eq_of_path_eq (mem_tokens_of_merged hv) hu hpath
  have hneeds : u.path ∈ k.needs s.contains := by simp [Token.needs, hwhole]
  have hrefers : k.references u.path = true :=
    Token.references_of_mem_needs (hclean _ (List.mem_cons_of_mem _ hmem)) hne hneeds
  rw [folded_survivor, Token.absorb_of_whole hwhole hmerged hsame hother (by simpa using hplain),
    Token.takeIn, if_pos hrefers, Token.inline_of_whole hwhole]

/-- The survivor depends on what the source depended on. -/
theorem dependence_of_value_eq {k' : Token}
    (hrun : TargetRun (mergeSource false k.path) sources s s' ops) (hk : k ∈ s.tokens)
    (hout : k.path ∉ sources) (hown : u.mentions u.path = false) (hpath : k'.path = k.path)
    (hvalue : k'.value = u.value) : k'.dependence s'.contains = u.dependence s.contains := by
  have hsame : u.targets s'.contains = u.targets s.contains := by
    refine Token.targets_congr fun q href => ?_
    refine (reduced_of_mergeRun hk hout hrun).contains_eq fun hgone => ?_
    obtain ⟨hqs, hqmem⟩ := mem_sources_of_lost hrun hgone
    rw [references_eq_false_of_apart hclean hu hapart (List.mem_cons_of_mem _ hqs) hqmem] at href
    cases href
  have hself : u.path ∉ k'.targets s'.contains := by
    intro hmem
    obtain ⟨y, hy, hcase⟩ := Token.mem_targets.mp hmem
    have hmentions : u.mentions u.path = true := Token.mentions_iff.mpr
      ⟨y, hvalue ▸ hy, hcase.symm.imp (fun hbare => hbare.2.1.symm) id⟩
    rw [hown] at hmentions
    cases hmentions
  have hback : k'.path ∉ u.targets s'.contains := by
    rw [hpath, hsame]
    intro hmem
    exact hapart _ List.mem_cons_self
      (.single ((needs_iff_of_mem hu).mpr (Token.mem_needs_of_mem_targets hmem)))
  have hraw : k'.raw = u.raw := by rw [Token.raw, hvalue, Token.raw]
  rw [Token.dependence, Token.targets_eq_of_value_eq hvalue hself hback, hsame, hraw,
    Token.dependence]

end

/-! ## What is found after a merge -/

theorem farFrom_lost (hrun : TargetRun (mergeSource false k.path) sources s s' ops)
    (hfold : s.Foldable (k.path :: sources)) (hlost : p ∉ s.lost s')
    (hapart : ∀ q ∈ k.path :: sources, ¬ TransGen s.Needs p q) : s.FarFrom (s.lost s') p := by
  have hsource : ∀ q ∈ s.lost s', q ∈ k.path :: sources := fun q hq =>
    List.mem_cons_of_mem _ (mem_sources_of_lost hrun hq).1
  exact farFrom_of_not_reaches (fun q hq => hfold.clean q (hsource q hq))
    (fun q hq => (mem_lost.mp hq).1) hlost fun q hq => hapart q (hsource q hq)

section

variable (hk : k ∈ s.tokens) (hout : k.path ∉ sources)
  (hrun : TargetRun (mergeSource false k.path) sources s s' ops)
  (hfold : s.Foldable (k.path :: sources))
include hk hout hrun hfold

/-- The token at the survivor after the merge: it is as it was and far from what is lost, or it has
the text of the source that it was a whole reference to. -/
theorem survivor_cases : s.FarFrom (s.lost s') k.path ∨
    ∃ u ∈ s.tokens, k.dependence s.contains = .whole u.path ∧
      (∀ target, u.dependence s.contains = .whole target → s.FarFrom (s.lost s') target) ∧
      ∃ k' ∈ s'.tokens, k'.path = k.path ∧ k'.resolved = none ∧ k'.value = u.value ∧
        k'.dependence s'.contains = u.dependence s.contains := by
  rcases hfold.apart k hk rfl with hapart | ⟨u, hu, hmem, hwhole, hown, hapart⟩
  · refine .inl (farFrom_lost hrun hfold (fun hgone => ?_) hapart)
    exact hout (mem_sources_of_lost hrun hgone).1
  · have hne : u.path ≠ k.path := by
      intro heq
      obtain rfl := eq_of_path_eq hu hk heq
      exact hapart _ List.mem_cons_self (.single (needs_of_whole hu hwhole))
    have hsource := (List.mem_cons.mp hmem).resolve_left hne
    have hfolded := folded_of_whole hfold.clean hu hapart hk hsource hwhole hown
    refine .inr ⟨u, hu, hwhole, fun target hform => ?_, s.folded k sources k, ?_,
      folded_path _ _ _ _, by rw [hfolded], by rw [hfolded], ?_⟩
    · have hneeds := needs_of_whole hu hform
      refine farFrom_lost hrun hfold (fun hgone => ?_) fun q hq hchain =>
        hapart q hq (.head hneeds hchain)
      exact hapart target (List.mem_cons_of_mem _ (mem_sources_of_lost hrun hgone).1)
        (.single hneeds)
    · rw [tokens_of_mergeRun hk hout hrun]
      exact folded_mem_foldedTokens k hk hout
    · exact dependence_of_value_eq hfold.clean hu hapart hrun hk hout hown (folded_path _ _ _ _)
        (by rw [hfolded])

/-- What is found at the survivor is the value that it came to before. -/
theorem comesTo_of_found_survivor (hs : s.Coherent) (h : s'.FoundAfter n k.path v) :
    s.ComesTo k.path v := by
  have hreduced := reduced_of_mergeRun hk hout hrun
  rcases survivor_cases hk hout hrun hfold with
    hfar | ⟨u, hu, hwhole, hfar, k', hk', hpath, hfresh, hvalue, hform⟩
  · exact hs.comesTo_of_found ((hreduced.found_iff hfar).mp h)
  · rw [← hpath] at h
    refine .whole hk hwhole ?_
    rcases h.cases_of_mem hk' with hv | ⟨_, hown, rfl⟩ | ⟨_, m, target, _, hlink, hrest⟩
    · rw [hfresh] at hv
      cases hv
    · rw [hvalue]
      exact .independent hu (hform.symm.trans hown)
    · have hlink' := hform.symm.trans hlink
      have hrest' := (hreduced.found_iff (hfar target hlink')).mp hrest
      exact .whole hu hlink' (hs.comesTo_of_found hrest')

/-- If no token has a resolved value, then what was found at the survivor is found there again. -/
theorem exists_found_survivor (hfresh : ∀ t ∈ s.tokens, t.resolved = none)
    (h : s.FoundAfter n k.path v) : ∃ m, s'.FoundAfter m k.path v := by
  have hreduced := reduced_of_mergeRun hk hout hrun
  rcases survivor_cases hk hout hrun hfold with
    hfar | ⟨u, hu, hwhole, hfar, k', hk', hpath, hfresh', hvalue, hform⟩
  · exact ⟨n, (hreduced.found_iff hfar).mpr h⟩
  · rcases h.cases_of_mem hk with hv | ⟨_, hown, _⟩ | ⟨_, m, target, _, hlink, hrest⟩
    · rw [hfresh k hk] at hv
      cases hv
    · rw [hwhole] at hown
      cases hown
    · obtain rfl : u.path = target := Dependence.whole.inj (hwhole.symm.trans hlink)
      rw [← hpath]
      rcases hrest.cases_of_mem hu with hv | ⟨_, hown, rfl⟩ | ⟨_, m', target', _, hlink', hrest'⟩
      · rw [hfresh u hu] at hv
        cases hv
      · rw [← hvalue]
        exact ⟨0, .own hk' hfresh' (hform.trans hown)⟩
      · exact ⟨m' + 1, .link hk' hfresh' (hform.trans hlink')
          ((hreduced.found_iff (hfar target' hlink')).mpr hrest')⟩

/-- What is found from a third token: the resolved value or the value that it had, or what is found
from the path that stands for the one that it referred to. -/
theorem third_cases (ht : t ∈ s.tokens) (hpath : t.path ≠ k.path) (hkept : t.path ∉ s.lost s')
    (h : s'.FoundAfter n t.path v) :
    t.resolved = some v ∨ (t.dependence s.contains = .independent ∧ t.value = v) ∨
      ∃ m target, t.dependence s.contains = .whole target ∧
        s'.FoundAfter m (s.standIn s' k.path target) v := by
  obtain ⟨t', ht', hpath', hrenamed, hresolved⟩ :=
    exists_third hk hout hrun hfold.clean ht hpath hkept
  have hform' := hrenamed.dependence
  rw [← hpath'] at h
  rcases h.cases_of_mem ht' with hv | ⟨_, hown, rfl⟩ | ⟨_, m, target, _, hlink, hrest⟩
  · exact .inl (hresolved v hv)
  · have hform := Dependence.map_eq_independent_iff.mp (hform'.symm.trans hown)
    exact .inr (.inl ⟨hform, (hrenamed.value hform).symm⟩)
  · obtain ⟨target', hform, rfl⟩ := Dependence.map_eq_whole_iff.mp (hform'.symm.trans hlink)
    exact .inr (.inr ⟨m, target', hform, hrest⟩)

/-- What is found in a coherent store after a merge is related to the value before in every way in
which a value is related to itself and the values of the targets to that of the survivor. -/
theorem related_of_found {R : Value → Value → Prop} (hs : s.Coherent) (hrefl : ∀ v, R v v)
    (hmember : ∀ q ∈ k.path :: sources, ∀ v w, s.ComesTo q v → s.ComesTo k.path w → R v w)
    (hv : s.ComesTo p v) (h : s'.FoundAfter n (s.standIn s' k.path p) w) : R v w := by
  have hsurvivor : ∀ {n w}, s'.FoundAfter n k.path w → s.ComesTo k.path w :=
    comesTo_of_found_survivor hk hout hrun hfold hs
  -- The induction is on what the path needs before the merge.
  refine hv.known.needs_induction (P := fun p => ∀ v n w, s.ComesTo p v →
    s'.FoundAfter n (s.standIn s' k.path p) w → R v w) (fun t ht ih v n w hv h => ?_) v n w hv h
  by_cases hgone : t.path ∈ s.lost s'
  · rw [standIn, if_pos hgone] at h
    exact hmember _ (List.mem_cons_of_mem _ (mem_sources_of_lost hrun hgone).1) v w hv (hsurvivor h)
  · rw [standIn, if_neg hgone] at h
    by_cases hpath : t.path = k.path
    · exact hmember _ (hpath ▸ List.mem_cons_self) v w hv (hsurvivor (hpath ▸ h))
    · rcases third_cases hk hout hrun hfold ht hpath hgone h with
        hresolved | ⟨hform, rfl⟩ | ⟨m, target, hform, hrest⟩
      · rw [hv.unique (computed?_eq_some_iff.mp (hs t ht w hresolved))]
        exact hrefl w
      · rw [hv.unique (.independent ht hform)]
        exact hrefl _
      · have htarget : target ∈ t.needs s.contains := by simp [Token.needs, hform]
        obtain ⟨u, hu⟩ := (Known.of_needs ht hv.known htarget).exists_comesTo
        rw [hv.unique (.whole ht hform hu)]
        exact ih target htarget u m w hu hrest

/-- Without resolved values every value that was found has one in its place after the merge. -/
theorem exists_found (hfresh : ∀ t ∈ s.tokens, t.resolved = none)
    (hkv : s.FoundAfter m k.path w) (h : s.FoundAfter n p v) :
    ∃ n' v', s'.FoundAfter n' (s.standIn s' k.path p) v' := by
  obtain ⟨m', hsurvivor⟩ := exists_found_survivor hk hout hrun hfold hfresh hkv
  have hstand : ∀ p, p ∈ s.lost s' ∨ p = k.path →
      ∃ n' v', s'.FoundAfter n' (s.standIn s' k.path p) v' := by
    rintro p (hgone | rfl)
    · rw [standIn, if_pos hgone]
      exact ⟨m', w, hsurvivor⟩
    · rw [standIn_survivor]
      exact ⟨m', w, hsurvivor⟩
  have hthird : ∀ t ∈ s.tokens, ¬ (t.path ∈ s.lost s' ∨ t.path = k.path) →
      s.standIn s' k.path t.path = t.path ∧ ∃ t' ∈ s'.tokens, t'.path = t.path ∧
        Token.Renamed (s.standIn s' k.path) s.contains s'.contains t t' ∧ t'.resolved = none := by
    intro t ht hpath
    obtain ⟨hkept, hpath⟩ := not_or.mp hpath
    obtain ⟨t', ht', hsame, hrenamed, hresolved⟩ :=
      exists_third hk hout hrun hfold.clean ht hpath hkept
    refine ⟨if_neg hkept, t', ht', hsame, hrenamed, Option.eq_none_iff_forall_ne_some.mpr ?_⟩
    intro v hv
    rw [hfresh t ht] at hresolved
    cases hresolved v hv
  induction h with
  | resolved ht hv =>
    rw [hfresh _ ht] at hv
    cases hv
  | @own t ht _ hform =>
    by_cases hpath : t.path ∈ s.lost s' ∨ t.path = k.path
    · exact hstand _ hpath
    · obtain ⟨hstandIn, t', ht', hsame, hrenamed, hfresh'⟩ := hthird t ht hpath
      have hform' := hrenamed.dependence
      rw [hform] at hform'
      rw [hstandIn, ← hsame]
      exact ⟨0, _, .own ht' hfresh' hform'⟩
  | @link n t target v ht _ hform _ ih =>
    by_cases hpath : t.path ∈ s.lost s' ∨ t.path = k.path
    · exact hstand _ hpath
    · obtain ⟨hstandIn, t', ht', hsame, hrenamed, hfresh'⟩ := hthird t ht hpath
      have hform' := hrenamed.dependence
      rw [hform] at hform'
      obtain ⟨n', v', hrest⟩ := ih
      rw [hstandIn, ← hsame]
      exact ⟨n' + 1, v', .link ht' hfresh' hform' hrest⟩

end

/-! ## Groups of an audit -/

/-- The values that the paths lead to have the same opacity. -/
def OneOpacity (s : OpenStore) (targets : List String) : Prop :=
  ∀ p ∈ targets, ∀ q ∈ targets, ∀ v w, s.valueAt? p = some v → s.valueAt? q = some w →
    v.opacity? = w.opacity?

section

variable {keywords : List String} {threshold : Nat} {g targets : List String}
  (hg : g ∈ (s.antiPatterns keywords threshold).redundantGroups)
include hg

theorem exists_found_of_mem_group (hq : q ∈ g) :
    ∃ v n, s.valueAt? q = some v ∧ s.FoundAfter n q v := by
  obtain ⟨_, _, v, hv⟩ := (s.groupsAlike_antiPatterns keywords threshold).valued g hg q hq
  obtain ⟨n, _, hfound⟩ := valueAt?_eq_some_iff_found.mp hv
  exact ⟨v, n, hv, hfound⟩

/-- In a coherent store the members of a group come to values that are alike, and if the members
have one opacity, to values that are the same. -/
theorem related_of_mem_group (hs : s.Coherent) (hsub : targets ⊆ g) (hp : p ∈ targets)
    (hq : q ∈ targets) (hv : s.ComesTo p v) (hw : s.ComesTo q w) :
    v.Alike w ∧ (s.OneOpacity targets → v.Same w) := by
  have hvalue : ∀ {r u}, r ∈ targets → s.ComesTo r u → s.valueAt? r = some u := by
    intro r u hr hu
    obtain ⟨u', _, hvalue, hfound⟩ := exists_found_of_mem_group hg (hsub hr)
    rw [hvalue, (hs.comesTo_of_found hfound).unique hu]
  have halike := alike_of_mem_redundantGroup hg (hsub hp) (hsub hq) (hvalue hp hv) (hvalue hq hw)
  exact ⟨halike, fun hone => halike.same_iff.mpr
    (hone p hp q hq v w (hvalue hp hv) (hvalue hq hw))⟩

end

/-- The redundant groups of an audit have no path in common, and two readable paths are in one group
exactly if they agree in class and intent and their values are written alike or are hex colours of
the same channels.  Such values are the same exactly if they agree in their opacity.

Merging foldable members of one group in a coherent store leaves every path with a value like the
one that it had, if it has one; and if the members have the same opacity, it is the same value.
Without resolved values a path keeps having one, though possibly at the end of a longer chain. -/
theorem redundant_groups_alike (keywords : List String) (threshold : Nat) :
    (∀ (locked : String → Bool) (s : Store locked),
      s.GroupsAlike (s.antiPatterns keywords threshold).redundantGroups) ∧
    ∀ s : OpenStore, s.Coherent → ∀ a : Action, a.kind = .merge → a.targets.Nodup →
      (∃ g ∈ (s.antiPatterns keywords threshold).redundantGroups, a.targets ⊆ g) →
      s.Foldable a.targets →
        ∃ s' ops, s.runAction false a = (s', .ok ops) ∧
          ∀ p ∈ s'.paths, ∀ v, s.valueAt? p = some v →
            (∀ w, s'.valueAt? p = some w → v.Alike w ∧ (s.OneOpacity a.targets → v.Same w)) ∧
              ((∀ t ∈ s.tokens, t.resolved = none) →
                ∃ n w, s'.FoundAfter n p w ∧ (n < 32 → s'.valueAt? p = some w)) := by
  refine ⟨fun locked s => s.groupsAlike_antiPatterns keywords threshold, ?_⟩
  rintro s hs a hkind hnodup ⟨g, hg, hsub⟩ hfold
  rcases s.exists_merge hkind with ⟨s', ops, hrun, rfl | ⟨k, hk, sources, htargets, hmerge⟩⟩
  · -- A merge that is refused changes nothing.
    refine ⟨s', ops, hrun, fun p _ v hv => ⟨fun w hw => ?_, fun _ => ?_⟩⟩
    · obtain rfl := Option.some.inj (hv.symm.trans hw)
      exact ⟨.refl v, fun _ => .refl v⟩
    · obtain ⟨n, _, hfound⟩ := valueAt?_eq_some_iff_found.mp hv
      exact ⟨n, v, hfound, fun _ => hv⟩
  · refine ⟨s', ops, hrun, fun p hp v hv => ?_⟩
    rw [htargets] at hnodup hfold hsub ⊢
    have hout := (List.nodup_cons.mp hnodup).1
    have hstand : s.standIn s' k.path p = p := if_neg fun hgone => (mem_lost.mp hgone).2 hp
    obtain ⟨n, _, hfound⟩ := valueAt?_eq_some_iff_found.mp hv
    constructor
    · intro w hw
      obtain ⟨m, _, hfound'⟩ := valueAt?_eq_some_iff_found.mp hw
      rw [← hstand] at hfound'
      exact related_of_found
        (R := fun v w => v.Alike w ∧ (s.OneOpacity (k.path :: sources) → v.Same w))
        hk hout hmerge hfold hs (fun v => ⟨.refl v, fun _ => .refl v⟩)
        (fun q hq v w => related_of_mem_group hg hs hsub hq List.mem_cons_self)
        (hs.comesTo_of_found hfound) hfound'
    · intro hfresh
      obtain ⟨w, m, _, hkv⟩ := exists_found_of_mem_group hg (hsub List.mem_cons_self)
      obtain ⟨n', v', hfound'⟩ := exists_found hk hout hmerge hfold hfresh hkv hfound
      rw [hstand] at hfound'
      exact ⟨n', v', hfound', fun hfew => valueAt?_eq_some_iff_found.mpr ⟨n', hfew, hfound'⟩⟩

/-- Two backgrounds of the same channels, of which one can be seen through, and a border with the
colour of that one. -/
def twoOpacities : OpenStore :=
  ⟨[{ path := "background.action.accent", value := .color "#3B82F6" },
    { path := "background.surface.accent", value := .color "#3B82F680" },
    { path := "border.surface.accent", value := .text "\x7bbackground.surface.accent\x7d" }],
    by decide⟩

/-- The backgrounds are one redundant group.  When they are merged, the border cannot be seen
through any more. -/
theorem redundant_groups_alike_twoOpacities :
    ∃ (a : Action) (s' : OpenStore) (ops : List Operation) (v w : Value), a.kind = .merge ∧
      a.targets.Nodup ∧ twoOpacities.Coherent ∧
      (∃ g ∈ (twoOpacities.antiPatterns [] 0).redundantGroups, a.targets ⊆ g) ∧
      twoOpacities.Foldable a.targets ∧ twoOpacities.runAction false a = (s', .ok ops) ∧
      twoOpacities.valueAt? "border.surface.accent" = some v ∧
      s'.valueAt? "border.surface.accent" = some w ∧ v.Alike w ∧ ¬ v.Same w := by
  let a : Action :=
    { id := "t.1", kind := .merge, description := ""
      targets := ["background.action.accent", "background.surface.accent"] }
  have hnodup : a.targets.Nodup := by decide
  have hcoherent : twoOpacities.Coherent := by
    have hfresh : ∀ t ∈ twoOpacities.tokens, t.resolved = none := by decide +kernel
    intro t ht v hv
    rw [hfresh t ht] at hv
    cases hv
  obtain ⟨hgroups, hmerges⟩ := redundant_groups_alike [] 0
  have hgroup : ∃ g ∈ (twoOpacities.antiPatterns [] 0).redundantGroups, a.targets ⊆ g := by
    have hread : ∀ p ∈ a.targets, (Naming.read? p).map (fun r => (r.name.propertyClass,
        r.name.intent)) = some (.background, .accent) := by decide +kernel
    have hvalue : twoOpacities.valueAt? "background.action.accent" = some (.color "#3B82F6") ∧
        twoOpacities.valueAt? "background.surface.accent" = some (.color "#3B82F680") := by
      decide +kernel
    obtain ⟨r, hr, hname⟩ := Option.map_eq_some_iff.mp (hread _ List.mem_cons_self)
    obtain ⟨r', hr', hname'⟩ :=
      Option.map_eq_some_iff.mp (hread _ (List.mem_cons_of_mem _ List.mem_cons_self))
    have hsame := Prod.ext_iff.mp (hname.trans hname'.symm)
    obtain ⟨g, hg, haction, hsurface⟩ := ((hgroups _ twoOpacities).together_iff _ (by decide) _
      (by decide) (by decide) r r' hr hr').mpr ⟨hsame.1, hsame.2, _, _, hvalue.1, hvalue.2,
        .inr ⟨⟨0x3B, 0x82, 0xF6⟩, by decide +kernel, by decide +kernel⟩⟩
    exact ⟨g, hg, by simp [a, haction, hsurface]⟩
  have hfold : twoOpacities.Foldable a.targets := by
    refine ⟨by decide +kernel, ?_⟩
    rintro k - hkeep
    refine .inl fun p _ hchain => ?_
    obtain ⟨q, ⟨t, ht, hpath, hq⟩, -⟩ := TransGen.head'_iff.mp hchain
    -- The first background needs nothing.
    have hnone : ∀ t ∈ twoOpacities.tokens, t.path = "background.action.accent" →
        t.needs twoOpacities.contains = [] := by decide +kernel
    rw [hnone t ht (hpath.trans (Option.some.inj hkeep).symm)] at hq
    cases hq
  obtain ⟨s', ops, hrun, hvalues⟩ := hmerges twoOpacities hcoherent a rfl hnodup hgroup hfold
  have hs' : s' = (twoOpacities.runAction false a).1 := by rw [hrun]
  have hbefore : twoOpacities.valueAt? "border.surface.accent" = some (.color "#3B82F680") := by
    decide +kernel
  have hafter : s'.valueAt? "border.surface.accent" = some (.color "#3B82F6") := by
    rw [hs']
    decide +kernel
  have hborder : "border.surface.accent" ∈ s'.paths := by
    rw [hs']
    decide +kernel
  have halike := ((hvalues _ hborder _ hbefore).1 _ hafter).1
  refine ⟨a, s', ops, _, _, rfl, hnodup, hcoherent, hgroup, hfold, hrun, hbefore, hafter, halike,
    ?_⟩
  rw [halike.same_iff]
  decide +kernel

end Store
end DesignTokens
