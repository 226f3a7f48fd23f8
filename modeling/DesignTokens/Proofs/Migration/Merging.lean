import DesignTokens.Proofs.Links.Cycles
import DesignTokens.Proofs.Migration.Runs

/-!
# Merging and cycles

A merge turns every reference to a source into one to the survivor and replaces those of the
survivor by values.  A third token, which is neither the survivor nor a source, is touched if it
refers to a source.  An untouched one keeps its links; a touched one now leads to the survivor and
otherwise only where it led before.  So a merge in a store without cycles closes a cycle exactly if
the survivor now leads back to a token that referred to one of the merged tokens.
-/

namespace DesignTokens

open Relation

namespace Token

open Reference

variable {t u : Token} {keep source : String} {sources : List String}

/-! ## Third tokens -/

/-- The token after its references to some sources have followed them into the survivor. -/
def followInto (keep : String) (sources : List String) (t : Token) : Token :=
  sources.foldl (fun t source => t.follow source keep) t

theorem followInto_cons (keep source : String) (sources : List String) (t : Token) :
    t.followInto keep (source :: sources) = (t.follow source keep).followInto keep sources := rfl

theorem followInto_append_singleton (keep : String) (sources : List String) (source : String)
    (t : Token) : t.followInto keep (sources ++ [source]) =
      (t.followInto keep sources).follow source keep := by
  simp [followInto]

theorem follow_of_not_references (h : t.references source = false) :
    t.follow source keep = t := by
  simp [follow, h]

@[simp]
theorem followInto_path (keep : String) (sources : List String) (t : Token) :
    (t.followInto keep sources).path = t.path := by
  induction sources generalizing t with
  | nil => rfl
  | cons source sources ih =>
    rw [followInto_cons, ih, follow_path]

/-- A token that refers to no source stays as it is. -/
theorem followInto_of_untouched (h : ∀ m ∈ sources, t.references m = false) :
    t.followInto keep sources = t := by
  induction sources with
  | nil => rfl
  | cons source sources ih =>
    rw [followInto_cons, follow_of_not_references (h source List.mem_cons_self)]
    exact ih fun m hm => h m (List.mem_cons_of_mem _ hm)

/-- A text that was redirected to the survivor: it names the survivor, and what else it embeds was
embedded in the text before. -/
def Redirected (keep : String) (u t : Token) : Prop :=
  ∃ y z, t.value.text? = some y ∧ u.value.text? = some z ∧
    (y = keep ∨ keep ∈ embedded y ∧ ∀ q ∈ embedded y, q = keep ∨ q ∈ embedded z)

theorem redirected_follow (hkeep : IsClean keep) (h : u.references source = true) :
    Redirected keep u (u.follow source keep) := by
  have hmention : u.mentions source = true := (references_iff.mp h).2
  rcases exists_redirect? hmention keep with ⟨z, y, hz, hy, hvalue⟩
  refine ⟨y, z, by simp [follow, h, hvalue], hz, ?_⟩
  rcases redirect?_cases hkeep.isReferable hy with ⟨_, hwhole⟩ | ⟨hmem, hembedded⟩
  · exact .inl hwhole
  · refine .inr ⟨?_, ?_⟩
    · rw [hembedded]
      exact List.mem_map.mpr ⟨source, hmem, if_pos rfl⟩
    · intro q hq
      rw [hembedded] at hq
      rcases List.mem_map.mp hq with ⟨p, hp, rfl⟩
      split
      · exact .inl rfl
      · exact .inr hp

theorem Redirected.follow (hkeep : IsClean keep) (hne : source ≠ keep) (h : Redirected keep u t) :
    Redirected keep u (t.follow source keep) := by
  by_cases href : t.references source = true
  · rcases h with ⟨y, z, hy, hz, hcase⟩
    rcases exists_redirect? (references_iff.mp href).2 keep with ⟨y₁, y', hy₁, hy', hvalue⟩
    have hsame : y₁ = y := Option.some.inj (hy₁.symm.trans hy)
    subst hsame
    refine ⟨y', z, by simp [Token.follow, href, hvalue], hz, ?_⟩
    rcases redirect?_cases hkeep.isReferable hy' with ⟨_, hwhole⟩ | ⟨hmem, hembedded⟩
    · exact .inl hwhole
    · rcases hcase with rfl | ⟨hsurvivor, hothers⟩
      · -- The survivor's path by itself embeds nothing.
        rw [hkeep.embedded] at hmem
        cases hmem
      · refine .inr ⟨?_, ?_⟩
        · rw [hembedded]
          exact List.mem_map.mpr ⟨keep, hsurvivor, if_neg (Ne.symm hne)⟩
        · intro q hq
          rw [hembedded] at hq
          rcases List.mem_map.mp hq with ⟨p, hp, rfl⟩
          split
          · exact .inl rfl
          · exact hothers p hp
  · rw [follow_of_not_references (by simpa using href)]
    exact h

/-- A token that refers to a source ends up redirected to the survivor. -/
theorem redirected_followInto (hkeep : IsClean keep) (hsources : keep ∉ sources) {m : String}
    (hm : m ∈ sources) (h : t.references m = true) :
    Redirected keep t (t.followInto keep sources) := by
  -- Once redirected to the survivor, a token stays so through the sources that are left.
  have hrest : ∀ (rest : List String) (v : Token), keep ∉ rest → Redirected keep t v →
      Redirected keep t (v.followInto keep rest) := by
    intro rest
    induction rest with
    | nil => exact fun v _ hv => hv
    | cons source rest ih =>
      intro v hout hv
      have hne : source ≠ keep := Ne.symm (List.ne_of_not_mem_cons hout)
      exact ih _ (List.not_mem_of_not_mem_cons hout) (hv.follow hkeep hne)
  induction sources with
  | nil => cases hm
  | cons source sources ih =>
    have hout := List.not_mem_of_not_mem_cons hsources
    by_cases href : t.references source = true
    · exact hrest sources _ hout (redirected_follow hkeep href)
    · have hlater : m ∈ sources := by
        rcases List.mem_cons.mp hm with rfl | hlater
        · exact absurd h href
        · exact hlater
      rw [followInto_cons, follow_of_not_references (by simpa using href)]
      exact ih hout hlater

end Token

namespace Store

variable {s s' s₁ : OpenStore} {keep source : String} {sources done : List String}
  {op : Operation} {ops : List Operation}

/-! ## The store after a merge -/

/-- What is left of a store when some sources were folded into the survivor: the other paths, and
the third tokens with their references redirected. -/
structure Merged (s : OpenStore) (keep : String) (done : List String) (s' : OpenStore) : Prop where
  paths : s'.paths = s.paths.filter fun p => !done.contains p
  third : ∀ t ∈ s'.tokens, t.path ≠ keep → ∃ u ∈ s.tokens, t = u.followInto keep done

theorem Merged.refl (s : OpenStore) (keep : String) : Merged s keep [] s where
  paths := by simp
  third t ht _ := ⟨t, ht, rfl⟩

/-- Replacing the survivor's references leaves every other token alone. -/
theorem tokens_inline (s : OpenStore) (keep source : String) :
    ∃ f, (s.inline keep source).tokens = s.tokens.map (editToken keep f) := by
  unfold inline
  split
  · exact ⟨_, rfl⟩
  · refine ⟨id, (List.map_id'' (fun t => ?_) _).symm⟩
    simp [editToken]

theorem mergeSource_eq_ok (keep : String) (hsource : source ∈ s.paths) :
    ∃ s' op, s.mergeSource false keep source = (s', .ok op) ∧ op.succeeded = true ∧
      s'.paths = s.paths.filter (fun p => p != source) ∧
      ∀ t ∈ s'.tokens, t.path ≠ keep → ∃ u ∈ s.tokens, t = u.follow source keep := by
  have hcontains := contains_iff.mpr hsource
  -- Inlining or not, the store differs at the survivor only.
  have hinlined : ∃ f, (if ((s.get? keep).any fun t => t.references source) = true
      then s.inline keep source else s).tokens = s.tokens.map (editToken keep f) := by
    split
    · exact tokens_inline s keep source
    · refine ⟨id, (List.map_id'' (fun t => ?_) _).symm⟩
      simp [editToken]
  simp only [mergeSource, hcontains, Bool.not_true, Bool.false_eq_true, if_false]
  generalize hmid : (if ((s.get? keep).any fun t => t.references source) = true
      then s.inline keep source else s) = mid at hinlined ⊢
  rcases hinlined with ⟨f, htokens⟩
  have hnodup : ((s.referrers source).filter fun p => p != keep).Nodup :=
    (s.nodup_referrers source).filter _
  refine ⟨_, _, rfl, rfl, ?_, ?_⟩
  · have hpaths : mid.paths = s.paths := by
      rw [paths, htokens, List.map_map]
      exact List.map_congr_left fun t _ => editToken_path keep f t
    rw [paths_erase, paths_redirectAll, hpaths]
  · intro t ht hne
    rw [tokens_erase, tokens_redirectAll hnodup, htokens] at ht
    rcases List.mem_map.mp (List.mem_filter.mp ht).1 with ⟨v, hv, rfl⟩
    rcases List.mem_map.mp hv with ⟨u, hu, rfl⟩
    -- A third token has another path than the survivor, before the step as after it.
    have hpath : u.path ≠ keep := by
      intro hkeep
      apply hne
      split <;> simp [hkeep]
    have hedit : editToken keep f u = u := by simp [editToken, hpath]
    refine ⟨u, hu, ?_⟩
    rw [hedit]
    simp only [List.mem_filter, bne_iff_ne, ne_eq, hpath, not_false_eq_true, and_true,
      path_mem_referrers hu source, Token.follow]

/-- Folding in the sources one after the other succeeds for each of them. -/
theorem Merged.run (hmerged : Merged s keep done s₁) (hnodup : sources.Nodup)
    (hsources : ∀ p ∈ sources, p ∈ s₁.paths)
    (h : TargetRun (mergeSource false keep) sources s₁ s' ops) :
    Merged s keep (done ++ sources) s' ∧ ∀ op ∈ ops, op.succeeded = true := by
  generalize hstep : mergeSource false keep = step at h
  induction h generalizing done with
  | nil s₁ => simpa using hmerged
  | @cons source sources s₁ s₂ s' op rest hop hrest ih =>
    rcases List.nodup_cons.mp hnodup with ⟨hfirst, hnodup'⟩
    rcases mergeSource_eq_ok keep (hsources source List.mem_cons_self) with
      ⟨s₂', op', hrun, hsucceeded, hpaths, hthird⟩
    rw [hstep, hop] at hrun
    cases hrun
    -- This step adds its source to those that are done.
    have hmerged' : Merged s keep (done ++ [source]) s₂ := by
      refine ⟨?_, fun t ht hne => ?_⟩
      · rw [hpaths, hmerged.paths, Text.filter_ne_eq_outside, Text.filter_outside_append]
      · rcases hthird t ht hne with ⟨v, hv, rfl⟩
        obtain ⟨u, hu, rfl⟩ := hmerged.third v hv (by simpa using hne)
        exact ⟨u, hu, (Token.followInto_append_singleton _ _ _ _).symm⟩
    have hsources' : ∀ p ∈ sources, p ∈ s₂.paths := by
      intro p hp
      rw [hpaths, List.mem_filter]
      refine ⟨hsources p (List.mem_cons_of_mem _ hp), ?_⟩
      have hne : p ≠ source := fun heq => hfirst (heq ▸ hp)
      simpa using hne
    rcases ih hmerged' hnodup' hsources' with ⟨hall, hops⟩
    refine ⟨by simpa using hall, fun o ho => ?_⟩
    rcases List.mem_cons.mp ho with rfl | ho
    · exact hsucceeded
    · exact hops o ho

/-! ## Links after a merge -/

/-- The token at a path refers to one of some paths. -/
def RefersToAny (s : OpenStore) (paths : List String) (p : String) : Prop :=
  ∃ u ∈ s.tokens, u.path = p ∧ ∃ m ∈ paths, u.references m = true

namespace Merged

variable {u : Token} {p q r : String}

theorem mem_paths_iff (h : Merged s keep sources s') :
    p ∈ s'.paths ↔ p ∈ s.paths ∧ p ∉ sources := by
  simp [h.paths]

theorem third_mem (h : Merged s keep sources s') (hu : u ∈ s.tokens)
    (hout : u.path ∉ keep :: sources) : u.followInto keep sources ∈ s'.tokens := by
  have hpath : u.path ∈ s'.paths :=
    h.mem_paths_iff.mpr ⟨path_mem_paths hu, List.not_mem_of_not_mem_cons hout⟩
  rcases mem_paths.mp hpath with ⟨t, ht, htpath⟩
  have hne : t.path ≠ keep := htpath ▸ List.ne_of_not_mem_cons hout
  rcases h.third t ht hne with ⟨v, hv, rfl⟩
  rwa [← eq_of_path_eq hv hu (by simpa using htpath)]

/-- A third token that refers to no source leads where it led before, as far as that is left. -/
theorem leads_iff_of_untouched (h : Merged s keep sources s') (hp : p ∉ keep :: sources)
    (huntouched : ¬ s.RefersToAny sources p) (hq : q ∈ s'.paths) :
    s'.graph.Leads p q ↔ s.graph.Leads p q := by
  have hqs : q ∈ s.paths := (h.mem_paths_iff.mp hq).1
  have hknown : s'.contains q = s.contains q := by
    rw [contains_iff.mpr hq, contains_iff.mpr hqs]
  by_cases hmem : p ∈ s.paths
  · rcases mem_paths.mp hmem with ⟨u, hu, rfl⟩
    -- The token is left as it was, so it leads where it led.
    have hsame : u.followInto keep sources = u := by
      refine Token.followInto_of_untouched fun m hm => ?_
      exact Bool.eq_false_iff.mpr fun href => huntouched ⟨u, hu, rfl, m, hm, href⟩
    have hu' : u ∈ s'.tokens := hsame ▸ h.third_mem hu hp
    rw [leads_iff_of_mem hu', leads_iff_of_mem hu, Token.mem_targets_congr hknown]
    simp [hq, hqs]
  · constructor
    · exact fun hlink => absurd (h.mem_paths_iff.mp (mem_paths_of_leads hlink).1).1 hmem
    · exact fun hlink => absurd (mem_paths_of_leads hlink).1 hmem

/-- Every cycle that a merge closes passes the survivor or a token that referred to a source. -/
theorem cyclic_iff (h : Merged s keep sources s') (hacyclic : ¬ s.graph.Cyclic) :
    s'.graph.Cyclic ↔
      ∃ p, (p = keep ∨ s.RefersToAny sources p) ∧ TransGen s'.graph.Leads p p := by
  constructor
  · intro hcycle
    rcases hcycle with ⟨p, hp⟩
    by_contra hnone
    refine hacyclic ⟨p, LinkGraph.transGen_of_onCycle (fun x y hx _ hlink => ?_) hp⟩
    have hkeep : x ≠ keep := fun heq => hnone ⟨x, .inl heq, hx⟩
    have huntouched : ¬ s.RefersToAny sources x := fun href => hnone ⟨x, .inr href, hx⟩
    rcases mem_paths_of_leads hlink with ⟨hxs, hys⟩
    have hout : x ∉ keep :: sources := by
      simp [hkeep, (h.mem_paths_iff.mp hxs).2]
    exact (h.leads_iff_of_untouched hout huntouched hys).mp hlink
  · intro hcycle
    rcases hcycle with ⟨p, _, hp⟩
    exact ⟨p, hp⟩

section

variable (h : Merged s keep sources s') (hclean : Reference.IsClean keep)
  (hkeep : keep ∈ s.paths) (hout : keep ∉ sources)
include h hclean hkeep hout

/-- After a merge a third token leads to the survivor if it referred to a merged token. -/
theorem leads_keep_iff (hp : p ∈ s'.paths) (hne : p ≠ keep) :
    s'.graph.Leads p keep ↔ s.RefersToAny (keep :: sources) p := by
  rcases h.mem_paths_iff.mp hp with ⟨hps, hpout⟩
  have hthird : p ∉ keep :: sources := by simp [hne, hpout]
  have hkeep' : keep ∈ s'.paths := h.mem_paths_iff.mpr ⟨hkeep, hout⟩
  rcases mem_paths.mp hps with ⟨u, hu, rfl⟩
  by_cases htouched : s.RefersToAny sources u.path
  · rcases htouched with ⟨v, hv, hpath, m, hm, href⟩
    obtain rfl := eq_of_path_eq hv hu hpath
    have hleads : s'.graph.Leads v.path keep := by
      have hmem := h.third_mem hu hthird
      have hpath' : (v.followInto keep sources).path = v.path := Token.followInto_path _ _ _
      rw [← hpath', leads_iff_of_mem hmem, Token.mem_targets]
      rcases Token.redirected_followInto hclean hout hm href with ⟨y, z, hy, _, hcase⟩
      refine ⟨⟨y, hy, ?_⟩, hkeep'⟩
      rcases hcase with rfl | ⟨hmem', _⟩
      · refine .inr ⟨hclean.embedded, hclean.trim.symm, hclean.1, ?_, hclean.hasBlank, ?_⟩
        · rw [hpath']
          exact Ne.symm hne
        · exact contains_iff.mpr hkeep'
      · exact .inl hmem'
    exact iff_of_true hleads ⟨v, hu, rfl, m, List.mem_cons_of_mem _ hm, href⟩
  · rw [h.leads_iff_of_untouched hthird htouched hkeep', leads_iff_of_mem hu, Token.mem_targets]
    constructor
    · intro htarget
      rcases htarget with ⟨⟨y, hy, hcase⟩, _⟩
      refine ⟨u, hu, rfl, keep, List.mem_cons_self, Token.references_iff.mpr ⟨hne, ?_⟩⟩
      rw [Token.mentions_iff]
      refine ⟨y, hy, ?_⟩
      rcases hcase with hmem | ⟨_, htrim, _⟩
      · exact .inr hmem
      · exact .inl htrim.symm
    · intro htouching
      rcases htouching with ⟨v, hv, hpath, m, hm, href⟩
      obtain rfl := eq_of_path_eq hv hu hpath
      rcases List.mem_cons.mp hm with rfl | hsource
      · rcases Token.mentions_iff.mp (Token.references_iff.mp href).2 with ⟨y, hy, hcase⟩
        refine ⟨⟨y, hy, ?_⟩, hkeep⟩
        rcases hcase with htrim | hmem
        · refine .inr ⟨?_, htrim.symm, hclean.1, Ne.symm hne, hclean.hasBlank, ?_⟩
          · exact Reference.embedded_of_trim_eq htrim fun c hc => (hclean.2 c hc).1
          · exact contains_iff.mpr hkeep
        · exact .inl hmem
      · exact absurd ⟨v, hu, rfl, m, hsource, href⟩ htouched

/-- After a merge a third token leads to other tokens only where it led before. -/
theorem leads_of_leads (hne : p ≠ keep) (hq : q ≠ keep) (hlink : s'.graph.Leads p q) :
    s.graph.LeadsOutside (keep :: sources) p q := by
  rcases mem_paths_of_leads hlink with ⟨hp', hq'⟩
  rcases h.mem_paths_iff.mp hp' with ⟨hps, hpout⟩
  rcases h.mem_paths_iff.mp hq' with ⟨hqs, hqout⟩
  have hthird : p ∉ keep :: sources := by simp [hne, hpout]
  refine ⟨hthird, by simp [hq, hqout], ?_⟩
  by_cases htouched : s.RefersToAny sources p
  · rcases htouched with ⟨u, hu, rfl, m, hm, href⟩
    have hmem := h.third_mem hu hthird
    have hpath : (u.followInto keep sources).path = u.path := Token.followInto_path _ _ _
    rw [← hpath, leads_iff_of_mem hmem, Token.mem_targets] at hlink
    rcases hlink with ⟨⟨y₁, hy₁, htarget⟩, _⟩
    rcases Token.redirected_followInto hclean hout hm href with ⟨y, z, hy, hz, hcase⟩
    obtain rfl : y₁ = y := Option.some.inj (hy₁.symm.trans hy)
    rw [leads_iff_of_mem hu, Token.mem_targets]
    refine ⟨⟨z, hz, .inl ?_⟩, hqs⟩
    rcases hcase with rfl | ⟨hsurvivor, hothers⟩
    · rcases htarget with hembedded | ⟨_, htrim, _⟩
      · rw [hclean.embedded] at hembedded
        cases hembedded
      · exact absurd (htrim.trans hclean.trim) hq
    · rcases htarget with hembedded | ⟨hnone, _⟩
      · exact (hothers q hembedded).resolve_left hq
      · rw [hnone] at hsurvivor
        cases hsurvivor
  · exact (h.leads_iff_of_untouched hthird htouched hq').mp hlink

/-- The survivor leads back to itself exactly if it leads to a third token from which links among
third tokens lead to one that referred to a merged token. -/
theorem reaches_keep_iff (hp : p ∈ s'.paths) :
    ReflTransGen s'.graph.Leads p keep ↔ p = keep ∨
      ∃ r, ReflTransGen (s.graph.LeadsOutside (keep :: sources)) p r ∧
        s.RefersToAny (keep :: sources) r := by
  constructor
  · intro hchain
    clear hp
    induction hchain using ReflTransGen.head_induction_on with
    | refl => exact .inl rfl
    | @head p q hlink _ ih =>
      by_cases hne : p = keep
      · exact .inl hne
      · by_cases hq : q = keep
        · have hp' := (mem_paths_of_leads hlink).1
          exact .inr ⟨p, .refl, (h.leads_keep_iff hclean hkeep hout hp' hne).mp (hq ▸ hlink)⟩
        · rcases ih.resolve_left hq with ⟨r, hchain, href⟩
          exact .inr ⟨r, .head (h.leads_of_leads hclean hkeep hout hne hq hlink) hchain, href⟩
  · intro hback
    rcases hback with rfl | ⟨r, hchain, href⟩
    · exact .refl
    · induction hchain using ReflTransGen.head_induction_on with
      | refl =>
        by_cases hne : r = keep
        · rw [hne]
        · exact .single ((h.leads_keep_iff hclean hkeep hout hp hne).mpr href)
      | @head p q hlink _ ih =>
        rcases hlink with ⟨hpout, hqout, hlink⟩
        by_cases htouched : s.RefersToAny sources p
        · -- The first touched token on the way leads to the survivor at once.
          rcases htouched with ⟨u, hu, hpath, m, hm, href'⟩
          have hne := List.ne_of_not_mem_cons hpout
          refine .single ((h.leads_keep_iff hclean hkeep hout hp hne).mpr ?_)
          exact ⟨u, hu, hpath, m, List.mem_cons_of_mem _ hm, href'⟩
        · have hq : q ∈ s'.paths := h.mem_paths_iff.mpr
            ⟨(mem_paths_of_leads hlink).2, List.not_mem_of_not_mem_cons hqout⟩
          exact .head ((h.leads_iff_of_untouched hpout htouched hq).mpr hlink) (ih hq)

theorem cyclic_iff_of_clean (hacyclic : ¬ s.graph.Cyclic) :
    s'.graph.Cyclic ↔ ∃ q, s'.graph.Leads keep q ∧ (q = keep ∨
      ∃ r, ReflTransGen (s.graph.LeadsOutside (keep :: sources)) q r ∧
        s.RefersToAny (keep :: sources) r) := by
  -- A cycle that misses the survivor would run over old links, and there was none.
  have hback : s'.graph.Cyclic ↔ TransGen s'.graph.Leads keep keep := by
    constructor
    · intro hcycle
      rcases hcycle with ⟨p, hp⟩
      by_contra hnone
      refine hacyclic ⟨p, LinkGraph.transGen_of_onCycle (fun x y hx hy hlink => ?_) hp⟩
      have hxkeep : x ≠ keep := fun heq => hnone (heq ▸ hx)
      have hykeep : y ≠ keep := fun heq => hnone (heq ▸ hy)
      exact (h.leads_of_leads hclean hkeep hout hxkeep hykeep hlink).2.2
    · exact fun hp => ⟨keep, hp⟩
  rw [hback, TransGen.head'_iff]
  refine exists_congr fun q => and_congr_right fun hlink => ?_
  exact h.reaches_keep_iff hclean hkeep hout (mem_paths_of_leads hlink).2

end

end Merged

/-! ## The merge action -/

/-- A merge over existing targets leaves a store in which its sources are folded into the first
target. -/
theorem exists_merged (hkeep : keep ∈ s.paths) (hnodup : (keep :: sources).Nodup)
    (hsources : ∀ p ∈ sources, p ∈ s.paths) :
    ∃ s' ops, s.merge false (keep :: sources) = (s', .ok ops) ∧ Merged s keep sources s' ∧
      (sources ≠ [] → ∀ op ∈ ops, op.succeeded = true) := by
  cases sources with
  | nil => exact ⟨s, _, rfl, .refl s keep, fun hne => absurd rfl hne⟩
  | cons source sources =>
    rcases exists_targetRun (exists_mergeSource false keep) (source :: sources) s with
      ⟨s', ops, hrun⟩
    rcases (Merged.refl s keep).run (List.nodup_cons.mp hnodup).2 hsources hrun with ⟨hmerged, hops⟩
    refine ⟨s', ops, ?_, hmerged, fun _ => hops⟩
    simp [merge, contains_iff.mpr hkeep, forTargets_eq_ok_iff.mpr hrun]

/-- A merge in a store without cycles closes a cycle only through the survivor or a token that
referred to a source.  With a clean survivor it closes one exactly if the survivor now leads to
itself, or leads over links among third tokens to one that referred to a merged token. -/
theorem cyclic_after_merge {a : Action} (hkind : a.kind = .merge)
    (htargets : a.targets = keep :: sources) (hnodup : a.targets.Nodup)
    (hexist : ∀ p ∈ a.targets, p ∈ s.paths) (hacyclic : ¬ s.graph.Cyclic) :
    ∃ s' ops, s.runAction false a = (s', .ok ops) ∧
      (s'.graph.Cyclic ↔
        ∃ p, (p = keep ∨ s.RefersToAny sources p) ∧ TransGen s'.graph.Leads p p) ∧
      (Reference.IsClean keep → (s'.graph.Cyclic ↔
        ∃ q, s'.graph.Leads keep q ∧ (q = keep ∨
          ∃ r, ReflTransGen (s.graph.LeadsOutside a.targets) q r ∧
            s.RefersToAny a.targets r))) := by
  rw [htargets] at hnodup hexist ⊢
  have hkeep := hexist keep List.mem_cons_self
  have hsources : ∀ p ∈ sources, p ∈ s.paths := fun p hp => hexist p (List.mem_cons_of_mem _ hp)
  have hout := (List.nodup_cons.mp hnodup).1
  rcases exists_merged hkeep hnodup hsources with ⟨s', ops, hrun, hmerged, _⟩
  refine ⟨s', ops, by simpa [runAction, hkind, htargets] using hrun, ?_, fun hclean => ?_⟩
  · exact hmerged.cyclic_iff hacyclic
  · exact hmerged.cyclic_iff_of_clean hclean hkeep hout hacyclic

/-- A store in which a first token refers to a second and that one to a third. -/
def threeInARow : OpenStore :=
  ⟨[{ path := "background.accent", value := .text "\x7bcolor.brand\x7d" },
    { path := "color.brand", value := .text "\x7bbackground.action.accent\x7d" },
    { path := "background.action.accent", value := .color "#3B82F6" }], by decide⟩

/-- Merging the ends of the row closes a cycle over its middle. -/
theorem cyclic_after_merge_threeInARow :
    ¬ threeInARow.graph.Cyclic ∧ ∃ a s' ops, a.kind = .merge ∧
      a.targets = ["background.accent", "background.action.accent"] ∧ a.targets.Nodup ∧
      (∀ p ∈ a.targets, p ∈ threeInARow.paths) ∧
      threeInARow.runAction false a = (s', .ok ops) ∧ s'.graph.Cyclic := by
  have hacyclic : ¬ threeInARow.graph.Cyclic := by
    let rank (p : String) : Nat :=
      if p = "background.accent" then 2 else if p = "color.brand" then 1 else 0
    exact LinkGraph.not_cyclic_of_rank rank (by decide)
  let a : Action :=
    { id := "t.1", kind := .merge, description := ""
      targets := ["background.accent", "background.action.accent"] }
  have hnodup : a.targets.Nodup := by decide
  have hexist : ∀ p ∈ a.targets, p ∈ threeInARow.paths := by decide
  rcases cyclic_after_merge rfl rfl hnodup hexist hacyclic with ⟨s', ops, hrun, _, hclosed⟩
  refine ⟨hacyclic, a, s', ops, rfl, rfl, hnodup, hexist, hrun, ?_⟩
  have hs' : s' = (threeInARow.runAction false a).1 := by rw [hrun]
  refine (hclosed (by decide)).mpr ⟨"color.brand", ?_, .inr ⟨"color.brand", .refl, ?_⟩⟩
  · rw [hs']
    decide
  · exact ⟨_, List.mem_cons_of_mem _ List.mem_cons_self, rfl, "background.action.accent",
      by decide, by decide⟩

end Store
end DesignTokens
