import DesignTokens.Proofs.Migration.Reduction
import DesignTokens.Proofs.Migration.Survivors
import DesignTokens.Proofs.Reference.Whole

/-!
# Merging tokens of one value

A merge points the references to its sources at the survivor.  If the sources come to the value of
the survivor, and the survivor rests on none of them, then every token that is left comes to the
value that it came to before: its text is the same but for the names of paths that come to one
value.

A survivor that rests on a source is left out here.  It takes in the text of that source, and what
becomes of its value then is another question.
-/

namespace DesignTokens

open Reference Relation

namespace Token

variable {t t' : Token} {known known' : String → Bool} {keep source : String}
  {sources : List String}

/-- A token refers to every other clean path that it needs. -/
theorem references_of_mem_needs {q : String} (hq : IsClean q) (hne : t.path ≠ q)
    (h : q ∈ t.needs known) : t.references q = true := by
  refine references_iff.mpr ⟨hne, mentions_iff.mpr ?_⟩
  cases hform : t.dependence known with
  | independent => simp [needs, hform] at h
  | whole target =>
    obtain rfl : q = target := by simpa [needs, hform] using h
    rcases text_of_whole hform with ⟨y, hy, ⟨_, hbare⟩ | ⟨hone, _⟩⟩
    · exact ⟨y, hy, .inl hbare⟩
    · exact ⟨y, hy, .inr (hone ▸ List.mem_singleton_self q)⟩
  | filled =>
    rcases text_of_filled hform with ⟨y, hy, _⟩
    have hraw : t.raw = y := Value.render_of_text? hy
    have hbody : q ∈ Reference.bodies y := by simpa [needs, hform, hraw] using h
    exact ⟨y, hy, .inr ((mem_bodies_iff.mp hbody).resolve_right fun hblank => hq.1 hblank.1)⟩

/-- A clean path of another token by itself is a whole reference to it. -/
theorem dependence_of_clean {y q : String} (hq : IsClean q) (hy : t.value.text? = some y)
    (hbare : Text.trim y = q) (hne : t.path ≠ q) (hknown : known q = true) :
    t.dependence known = .whole q := by
  have hnone : embedded y = [] := embedded_of_trim_eq hbare fun c hc => (hq.2 c hc).1
  refine dependence_of_bare hy hnone (mem_targets.mpr ⟨y, hy, .inr ⟨hnone, hbare.symm, hq.1, ?_⟩⟩)
  exact ⟨Ne.symm hne, hq.hasBlank, hknown⟩

/-- Redirecting the groups of a text, one of which names the source, renames the source. -/
theorem renamed_of_relabels {y y' : String} (hkeep : IsClean keep) (hy : t.value.text? = some y)
    (hy' : t'.value.text? = some y') (hmem : source ∈ embedded y) (h : Relabels source keep y y') :
    Renamed (fun p => if p = source then keep else p) known known t t' := by
  have hsource := (noBrace_of_mem_embedded hmem).1
  have hbare := trim_ne_of_mem_embedded hmem
  have hpure := h.pure? hsource hkeep hbare
  have hbodies := h.bodies hsource hkeep hbare
  have hraw : t.raw = y := Value.render_of_text? hy
  have hraw' : t'.raw = y' := Value.render_of_text? hy'
  have hmem' : keep ∈ embedded y' := by
    have hbody : keep ∈ bodies y' := by
      rw [hbodies]
      exact List.mem_map.mpr ⟨source, mem_bodies_iff.mpr (.inl hmem), if_pos rfl⟩
    exact (mem_bodies_iff.mp hbody).resolve_right fun hblank => hkeep.1 hblank.1
  refine ⟨?_, fun hform => ?_, fun _ => by rw [hraw, hraw', hbodies], fun _ f => ?_⟩
  · rw [dependence_of_embedded hy hmem, dependence_of_embedded hy' hmem', hpure]
    cases pure? y <;> rfl
  · rw [dependence_of_embedded hy hmem] at hform
    cases hpure : pure? y <;> rw [hpure] at hform <;> cases hform
  · rw [hraw, hraw', h.fill hsource hkeep hbare]

/-- A token that follows a source into the survivor depends on the survivor where it depended on the
source. -/
theorem renamed_follow (hkeep : IsClean keep) (hsource : IsClean source) (hpath : t.path ≠ source)
    (hpath' : t.path ≠ keep) (hknown : known source = true) (hknown' : known keep = true) :
    Renamed (fun p => if p = source then keep else p) known known t (t.follow source keep) := by
  by_cases href : t.references source = true
  · rcases exists_redirect? (references_iff.mp href).2 keep with ⟨y, y', hy, hy', hvalue⟩
    rw [follow, if_pos href]
    have hrelabels := redirect_relabels hsource.1 hkeep y
    rw [hy', Option.getD_some] at hrelabels
    by_cases hbare : Text.trim y = source
    · rw [Relabels, if_pos hbare] at hrelabels
      rw [hrelabels] at hvalue
      have hform : t.dependence known = .whole source :=
        dependence_of_clean hsource hy hbare hpath hknown
      have hform' : (t.redirect source keep).dependence known = .whole keep :=
        dependence_of_clean hkeep hvalue hkeep.trim (by rwa [redirect_path]) hknown'
      refine ⟨?_, ?_, ?_, ?_⟩
      · rw [hform, hform', Dependence.map, if_pos rfl]
      all_goals
        intro hform''
        rw [hform] at hform''
        cases hform''
    · have hmem : source ∈ embedded y := by
        have hmention := isSome_redirect? y source keep
        rw [hy', Option.isSome_some] at hmention
        exact (Reference.mentions_iff.mp hmention.symm).resolve_left hbare
      exact renamed_of_relabels hkeep hy hvalue hmem hrelabels
  · rw [follow_of_not_references (by simpa using href)]
    refine .of_fixed rfl fun q hq => if_neg fun heq => ?_
    rw [heq] at hq
    exact href (references_of_mem_needs hsource hpath hq)

/-- A third token that follows some sources into the survivor depends on the survivor where it
depended on one of them. -/
theorem renamed_followInto (hkeep : IsClean keep) (hclean : ∀ p ∈ sources, IsClean p)
    (hthird : t.path ∉ keep :: sources) (hknown : ∀ p ∈ keep :: sources, known p = true) :
    Renamed (fun p => if p ∈ sources then keep else p) known known t
      (t.followInto keep sources) := by
  -- The induction is on the sources in the order in which they are followed, last one first.
  induction sources using List.reverseRecOn with
  | nil => exact .of_fixed rfl fun q _ => by simp
  | append_singleton before source ih =>
    have hsub : ∀ p ∈ keep :: before, p ∈ keep :: (before ++ [source]) := by
      intro p hp
      rw [← List.cons_append]
      exact List.mem_append_left _ hp
    have hmem : source ∈ before ++ [source] := List.mem_append_right _ (List.mem_singleton_self _)
    have hfirst := ih (fun p hp => hclean p (List.mem_append_left _ hp))
      (fun hmem => hthird (hsub _ hmem)) (fun p hp => hknown p (hsub p hp))
    have hpath : t.path ≠ source :=
      (ne_of_mem_of_not_mem (List.mem_cons_of_mem _ hmem) hthird).symm
    have hpath' : t.path ≠ keep := (ne_of_mem_of_not_mem List.mem_cons_self hthird).symm
    have hlast : Renamed (fun p => if p = source then keep else p) known known
        (t.followInto keep before) (t.followInto keep (before ++ [source])) := by
      rw [followInto_append_singleton]
      exact renamed_follow hkeep (hclean source hmem) (by rwa [followInto_path])
        (by rwa [followInto_path]) (hknown source (List.mem_cons_of_mem _ hmem))
        (hknown keep List.mem_cons_self)
    have hboth : (fun p => if p ∈ before ++ [source] then keep else p) =
        fun p => if (if p ∈ before then keep else p) = source then keep
          else if p ∈ before then keep else p := by
      funext p
      by_cases hp : p ∈ before <;> simp [hp]
    rw [hboth]
    exact hfirst.trans hlast

/-- The same if the sources disappear. -/
theorem renamed_followInto_of_gone (hkeep : IsClean keep) (hclean : ∀ p ∈ sources, IsClean p)
    (hout : keep ∉ sources) (hthird : t.path ∉ keep :: sources)
    (hknown : ∀ p ∈ keep :: sources, known p = true)
    (hsame : ∀ p, p ∉ sources → known' p = known p) :
    Renamed (fun p => if p ∈ sources then keep else p) known known' t
      (t.followInto keep sources) := by
  refine (renamed_followInto hkeep hclean hthird hknown).trans (g := id)
    (.of_fixed ?_ fun _ _ => rfl)
  have htargets : (t.followInto keep sources).targets known' =
      (t.followInto keep sources).targets known := by
    refine targets_congr fun q href => hsame q fun hq => ?_
    have hgone := not_mentions_followInto hkeep hclean hout
      (fun hmem => hthird (List.mem_cons_of_mem _ hmem)) hq
    rw [(references_iff.mp href).2] at hgone
    cases hgone
  rw [dependence, htargets, dependence]

end Token

namespace Store

variable {s s' : OpenStore} {k : Token} {p : String} {sources gone : List String}
  {ops : List Operation} {v : Value}

/-- What refers to a clean path of the store needs it. -/
theorem Needs.of_references {t : Token} (ht : t ∈ s.tokens) (hp : IsClean p) (hmem : p ∈ s.paths)
    (href : t.references p = true) : s.Needs t.path p := by
  have hne : t.path ≠ p := (Token.references_iff.mp href).1
  refine (needs_iff_of_mem ht).mpr (Token.mem_needs_of_mem_targets ?_)
  exact (Token.mem_targets_iff_references hne (contains_iff.mpr hmem)).mpr
    ⟨href, .inl hp.isBare⟩

/-- What is not gone and leads to nothing that is gone is far from it. -/
theorem farFrom_of_not_reaches (hclean : ∀ q ∈ gone, IsClean q) (hmem : ∀ q ∈ gone, q ∈ s.paths)
    (hout : p ∉ gone) (h : ∀ q ∈ gone, ¬ TransGen s.Needs p q) : s.FarFrom gone p := by
  intro q hq
  constructor
  · intro hgone
    rcases reflTransGen_iff_eq_or_transGen.mp hq with rfl | hchain
    · exact hout hgone
    · exact h q hgone hchain
  · rintro ⟨u, hu, rfl, r, hr, href⟩
    -- A reference to what is gone is one more link of the chain.
    exact h r hr (.tail' hq (.of_references hu (hclean r hr) (hmem r hr) href))

/-- The targets that are there come to one value, and the first of them rests on none of them. -/
structure Redundant (s : OpenStore) (targets : List String) : Prop where
  clean : ∀ p ∈ targets, IsClean p
  value : ∃ w, ∀ p ∈ targets, p ∈ s.paths → s.computed? p = some w
  survivor : ∀ keep, targets.head? = some keep → ∀ p ∈ targets, ¬ TransGen s.Needs keep p

/-- Two backgrounds of one colour are redundant. -/
example : (⟨[{ path := "background.action.accent", value := .color "#3B82F6" },
    { path := "background.surface.accent", value := .color "#3B82F6" }],
      by decide⟩ : OpenStore).Redundant
    ["background.action.accent", "background.surface.accent"] where
  clean := by decide +kernel
  value := ⟨.color "#3B82F6", by decide +kernel⟩
  survivor := by
    rintro keep hkeep p - hchain
    cases hkeep
    rcases TransGen.head'_iff.mp hchain with ⟨q, ⟨t, ht, hpath, hq⟩, -⟩
    replace hq := List.ne_nil_of_mem hq
    revert t
    decide +kernel

/-- A survivor that leads to no source comes to the value that it came to before. -/
theorem Reduced.comesTo_survivor (h : Reduced s s') (hkept : k.path ∉ s.lost s')
    (hclean : ∀ p ∈ s.lost s', IsClean p) (hfar : ∀ p ∈ s.lost s', ¬ TransGen s.Needs k.path p)
    (hv : s.ComesTo k.path v) : s'.ComesTo k.path v := by
  exact h.comesTo (farFrom_of_not_reaches hclean (fun p hp => (mem_lost.mp hp).1) hkept hfar) hv

/-- A run loses sources only. -/
theorem mem_sources_of_lost (hrun : TargetRun (mergeSource false k.path) sources s s' ops)
    (hp : p ∈ s.lost s') : p ∈ sources ∧ p ∈ s.paths :=
  mem_paths_merged.mp ((mem_lost_iff_merged hrun).mp hp)

/-- A third token depends on the survivor where it depended on a source. -/
theorem renamed_folded {t : Token} (hk : k ∈ s.tokens) (hout : k.path ∉ sources)
    (hrun : TargetRun (mergeSource false k.path) sources s s' ops)
    (hclean : ∀ p ∈ k.path :: sources, IsClean p) (hpath : t.path ≠ k.path)
    (hkept : t.path ∉ s.lost s') :
    Token.Renamed (fun p => if p ∈ s.lost s' then k.path else p) s.contains s'.contains t
      (s.folded k sources t) := by
  have hsub : ∀ p ∈ (s.merged sources).map Token.path, p ∈ sources := fun p hp =>
    (mem_paths_merged.mp hp).1
  rw [folded_third s sources hpath]
  simp only [mem_lost_iff_merged hrun] at hkept ⊢
  refine Token.renamed_followInto_of_gone (hclean _ List.mem_cons_self)
    (fun p hp => hclean p (List.mem_cons_of_mem _ (hsub p hp))) (fun hmem => hout (hsub _ hmem))
    (by simpa [hpath] using hkept) ?_ fun p hp => ?_
  · refine List.forall_mem_cons.mpr ⟨contains_iff.mpr (path_mem_paths hk), fun p hp => ?_⟩
    exact contains_iff.mpr (mem_paths_merged.mp hp).2
  · rw [← mem_lost_iff_merged hrun] at hp
    exact (reduced_of_mergeRun hk hout hrun).contains_eq hp

/-- The path that stands for another one after a merge. -/
def standIn (s s' : OpenStore) (keep p : String) : String := if p ∈ s.lost s' then keep else p

theorem standIn_survivor (s s' : OpenStore) (keep : String) : s.standIn s' keep keep = keep := by
  unfold standIn
  split <;> rfl

/-- A third token depends on the paths that stand for those that it depended on, and it has no
resolved value that it did not have. -/
theorem exists_third {t : Token} (hk : k ∈ s.tokens) (hout : k.path ∉ sources)
    (hrun : TargetRun (mergeSource false k.path) sources s s' ops)
    (hclean : ∀ p ∈ k.path :: sources, IsClean p) (ht : t ∈ s.tokens)
    (hpath : t.path ≠ k.path) (hkept : t.path ∉ s.lost s') :
    ∃ t' ∈ s'.tokens, t'.path = t.path ∧
      Token.Renamed (s.standIn s' k.path) s.contains s'.contains t t' ∧
        ∀ v, t'.resolved = some v → t.resolved = some v := by
  have hthere : t.path ∉ sources := fun hin =>
    hkept ((mem_lost_iff_merged hrun).mpr (mem_paths_merged.mpr ⟨hin, path_mem_paths ht⟩))
  have ht' : s.folded k sources t ∈ s'.tokens := by
    rw [tokens_of_mergeRun hk hout hrun]
    exact folded_mem_foldedTokens k ht hthere
  refine ⟨_, ht', folded_path _ _ _ _, renamed_folded hk hout hrun hclean hpath hkept, ?_⟩
  intro v hv
  -- A token that still has a resolved value was not rewritten.
  have hold := ((reduced_of_mergeRun hk hout hrun).resolved _ ht' v hv).1
  rwa [eq_of_path_eq hold ht (folded_path _ _ _ _)] at hv

/-- When sources of the survivor's value are merged into it, every path comes to the value that it
came to before, if the survivor is read for the sources. -/
theorem comesTo_of_mergeRun (hk : k ∈ s.tokens) (hout : k.path ∉ sources)
    (hrun : TargetRun (mergeSource false k.path) sources s s' ops)
    (hredundant : s.Redundant (k.path :: sources)) (hv : s.ComesTo p v) :
    s'.ComesTo (s.standIn s' k.path p) v := by
  have hreduced := reduced_of_mergeRun hk hout hrun
  -- The lost paths are sources, and so they have the value of the survivor.
  have hsource : ∀ p ∈ s.lost s', p ∈ k.path :: sources := fun p hp =>
    List.mem_cons_of_mem _ (mem_sources_of_lost hrun hp).1
  rcases hredundant.value with ⟨w, hvalue⟩
  have hkv : s.ComesTo k.path w :=
    computed?_eq_some_iff.mp (hvalue _ List.mem_cons_self (path_mem_paths hk))
  have hequal : ∀ p ∈ s.lost s', s.ComesTo p w := fun p hp =>
    computed?_eq_some_iff.mp (hvalue p (hsource p hp) (mem_lost.mp hp).1)
  have hkept : k.path ∉ s.lost s' := fun hmem => hout (mem_sources_of_lost hrun hmem).1
  have hkv' : s'.ComesTo k.path w :=
    hreduced.comesTo_survivor hkept (fun p hp => hredundant.clean p (hsource p hp))
      (fun p hp => hredundant.survivor _ rfl p (hsource p hp)) hkv
  refine hv.known.needs_induction (P := fun p => ∀ v, s.ComesTo p v →
    s'.ComesTo (s.standIn s' k.path p) v) (fun t ht ih v hv => ?_) v hv
  by_cases hgone : t.path ∈ s.lost s'
  · rw [standIn, if_pos hgone, hv.unique (hequal t.path hgone)]
    exact hkv'
  · rw [standIn, if_neg hgone]
    by_cases hpath : t.path = k.path
    · rw [hpath] at hv ⊢
      rwa [hv.unique hkv]
    · obtain ⟨t', ht', hsame, hrenamed, _⟩ :=
        exists_third hk hout hrun hredundant.clean ht hpath hgone
      rw [← hsame]
      exact (comesTo_iff_yields ht').mpr (((comesTo_iff_yields ht).mp hv).renamed hrenamed ih)

end Store

end DesignTokens
