import DesignTokens.Proofs.Migration.Merging

/-!
# Folding tokens into a survivor

A merge goes through its sources in their order and leaves out those that are missing, be it from
the start or because they came before.  What it leaves of a store can be written down: the sources
are gone, a third token has followed its references to them into the survivor, and the survivor has
taken in the sources that it refers to, one after the other, each as the ones before have left it.

All of this is about a survivor that is none of its own sources.  Which paths disappear, and which
operations succeed, does not depend on that.
-/

namespace DesignTokens

namespace Token

variable {k t u : Token} {done : List String} {us : List Token}

/-! ## Taking in a source -/

/-- The token with the value of another one in place of its references to it. -/
def takeIn (t u : Token) : Token :=
  if t.references u.path then t.inline u.path u.value else t

@[simp]
theorem takeIn_path (t u : Token) : (t.takeIn u).path = t.path := by
  unfold takeIn
  split
  · exact inline_path _ _ t
  · rfl

theorem takeIn_of_not_references (h : t.references u.path = false) : t.takeIn u = t := by
  simp [takeIn, h]

/-- The token after it took in some others, each of which had its own references to those that went
before it turned into references to the token. -/
def absorb (t : Token) (done : List String) : List Token → Token
  | [] => t
  | u :: us => (t.takeIn (u.followInto t.path done)).absorb (done ++ [u.path]) us

@[simp]
theorem absorb_path (t : Token) (done : List String) (us : List Token) :
    (t.absorb done us).path = t.path := by
  induction us generalizing t done with
  | nil => rfl
  | cons u us ih => rw [absorb, ih, takeIn_path]

theorem absorb_append_singleton (t : Token) (done : List String) (us : List Token) (u : Token) :
    t.absorb done (us ++ [u]) =
      (t.absorb done us).takeIn (u.followInto t.path (done ++ us.map Token.path)) := by
  induction us generalizing t done with
  | nil => simp [absorb]
  | cons v us ih => simp [absorb, ih]

/-- A token that refers to none of the others stays as it is. -/
theorem absorb_of_untouched (h : ∀ u ∈ us, t.references u.path = false) :
    t.absorb done us = t := by
  induction us generalizing done with
  | nil => rfl
  | cons u us ih =>
    have hkept : t.takeIn (u.followInto t.path done) = t :=
      takeIn_of_not_references (by simpa using h u List.mem_cons_self)
    rw [absorb, hkept]
    exact ih fun v hv => h v (List.mem_cons_of_mem _ hv)

/-- The token after another one was folded into the survivor. -/
def foldInto (k u t : Token) : Token :=
  if t.path = k.path then k.takeIn u else t.follow u.path k.path

@[simp]
theorem foldInto_path (k u t : Token) : (foldInto k u t).path = t.path := by
  unfold foldInto
  split
  · next hpath => rw [takeIn_path, hpath]
  · exact follow_path _ _ t

end Token

namespace Store

variable {s s' s₁ : OpenStore} {k t u : Token} {keep p : String} {sources before : List String}
  {op : Operation} {ops : List Operation}

/-! ## One source -/

/-- Taking a token in changes the survivor only. -/
theorem tokens_takeIn (hk : k ∈ s.tokens) (hu : u ∈ s.tokens) :
    (if k.references u.path = true then s.inline k.path u.path else s).tokens =
      s.tokens.map fun t => if t.path = k.path then k.takeIn u else t := by
  unfold Token.takeIn
  split
  · exact tokens_inline_of_mem hk hu
  · have hsame : ∀ t ∈ s.tokens, (if t.path = k.path then k else t) = t := by
      intro t ht
      split
      · next hpath => exact (eq_of_path_eq ht hk hpath).symm
      · rfl
    rw [List.map_congr_left hsame, List.map_id']

/-- Folding a token into the survivor removes it.  The survivor takes it in, and the third tokens
follow it. -/
theorem tokens_mergeSource (hk : k ∈ s.tokens) (hu : u ∈ s.tokens) :
    ∃ s' op, s.mergeSource false k.path u.path = (s', .ok op) ∧
      s'.tokens = (s.tokens.filter fun t => t.path != u.path).map (Token.foldInto k u) := by
  have hcontains := contains_iff.mpr (path_mem_paths hu)
  have hkeep : s.get? k.path = some k := get?_eq_some_iff.mpr ⟨hk, rfl⟩
  have htaken := tokens_takeIn hk hu
  simp only [mergeSource, hcontains, hkeep, Option.any_some, Bool.not_true, Bool.false_eq_true,
    if_false]
  generalize (if k.references u.path = true then s.inline k.path u.path else s) = mid at htaken ⊢
  have hnodup : ((s.referrers u.path).filter fun p => p != k.path).Nodup :=
    (s.nodup_referrers u.path).filter _
  -- The referrers that are redirected are third tokens.
  have hthird : ∀ t ∈ s.tokens, t.path ∈ (s.referrers u.path).filter (fun p => p != k.path) ↔
      t.references u.path = true ∧ t.path ≠ k.path := by
    intro t ht
    rw [List.mem_filter, path_mem_referrers ht, bne_iff_ne]
  have hredirected : (mid.redirectAll ((s.referrers u.path).filter fun p => p != k.path)
      u.path k.path).tokens = s.tokens.map (Token.foldInto k u) := by
    rw [tokens_redirectAll hnodup, htaken, List.map_map]
    refine List.map_congr_left fun t ht => ?_
    unfold Token.foldInto
    by_cases hpath : t.path = k.path
    · simp [hpath]
    · rw [Function.comp_apply, if_neg hpath, if_neg hpath]
      simp only [hthird t ht, and_iff_left hpath, Token.follow]
  refine ⟨_, _, rfl, ?_⟩
  rw [tokens_erase, hredirected, List.filter_map]
  congr 1
  exact List.filter_congr fun t _ => by simp

/-! ## All sources -/

/-- The tokens at the sources that a store has, each once. -/
def merged (s : OpenStore) (sources : List String) : List Token :=
  (Text.firsts sources).filterMap s.get?

/-- What a token of the store becomes when some sources are folded into a survivor. -/
def folded (s : OpenStore) (k : Token) (sources : List String) (t : Token) : Token :=
  if t.path = k.path then k.absorb [] (s.merged sources)
  else t.followInto k.path ((s.merged sources).map Token.path)

/-- The tokens that are left when some sources are folded into a survivor. -/
def foldedTokens (s : OpenStore) (k : Token) (sources : List String) : List Token :=
  (s.tokens.filter fun t => !sources.contains t.path).map (s.folded k sources)

theorem folded_survivor (s : OpenStore) (k : Token) (sources : List String) :
    s.folded k sources k = k.absorb [] (s.merged sources) := if_pos rfl

theorem folded_third (s : OpenStore) (sources : List String) (h : t.path ≠ k.path) :
    s.folded k sources t = t.followInto k.path ((s.merged sources).map Token.path) := if_neg h

@[simp]
theorem folded_path (s : OpenStore) (k : Token) (sources : List String) (t : Token) :
    (s.folded k sources t).path = t.path := by
  unfold folded
  split
  · next hpath => rw [Token.absorb_path, hpath]
  · exact Token.followInto_path _ _ t

/-- A token that refers to no merged token stays as it is. -/
theorem folded_of_untouched (hk : k ∈ s.tokens) (ht : t ∈ s.tokens)
    (h : ∀ u ∈ s.merged sources, t.references u.path = false) : s.folded k sources t = t := by
  by_cases hpath : t.path = k.path
  · obtain rfl := eq_of_path_eq ht hk hpath
    rw [folded_survivor, Token.absorb_of_untouched h]
  · rw [folded_third s sources hpath]
    exact Token.followInto_of_untouched (by simpa using h)

theorem mem_tokens_of_merged (h : t ∈ s.merged sources) : t ∈ s.tokens := by
  rcases List.mem_filterMap.mp h with ⟨p, _, ht⟩
  exact (get?_eq_some_iff.mp ht).1

theorem mem_paths_merged : p ∈ (s.merged sources).map Token.path ↔ p ∈ sources ∧ p ∈ s.paths := by
  simp only [merged, List.mem_map, List.mem_filterMap, Text.mem_firsts, get?_eq_some_iff]
  constructor
  · intro h
    rcases h with ⟨t, ⟨q, hq, ht, rfl⟩, rfl⟩
    exact ⟨hq, path_mem_paths ht⟩
  · intro h
    rcases h with ⟨hp, hmem⟩
    rcases mem_paths.mp hmem with ⟨t, ht, rfl⟩
    exact ⟨t, ⟨t.path, hp, ht, rfl⟩, rfl⟩

/-- A source that is missing or that came before adds nothing. -/
theorem merged_append_of_gone (h : p ∉ s.paths ∨ p ∈ before) :
    s.merged (before ++ [p]) = s.merged before := by
  rw [merged, Text.firsts_concat, merged]
  split
  · rfl
  · next hnew =>
    have hnone : s.get? p = none := by
      rw [Option.eq_none_iff_forall_ne_some]
      intro t ht
      rcases get?_eq_some_iff.mp ht with ⟨hmem, rfl⟩
      exact (h.resolve_right hnew) (path_mem_paths hmem)
    simp [List.filterMap_append, hnone]

theorem merged_append_of_new (hu : u ∈ s.tokens) (h : u.path ∉ before) :
    s.merged (before ++ [u.path]) = s.merged before ++ [u] := by
  rw [merged, Text.firsts_concat, if_neg h, List.filterMap_append, merged]
  simp [get?_eq_some_iff.mpr ⟨hu, rfl⟩]

theorem folded_mem_foldedTokens (k : Token) (ht : t ∈ s.tokens) (hout : t.path ∉ sources) :
    s.folded k sources t ∈ s.foldedTokens k sources := by
  refine List.mem_map.mpr ⟨t, List.mem_filter.mpr ⟨ht, ?_⟩, rfl⟩
  simpa using hout

theorem paths_foldedTokens (s : OpenStore) (k : Token) (sources : List String) :
    (s.foldedTokens k sources).map Token.path = s.paths.filter fun p => !sources.contains p := by
  rw [foldedTokens, List.map_map, paths, List.filter_map]
  exact List.map_congr_left fun t _ => by simp

/-- To fold in nothing changes nothing. -/
theorem foldedTokens_nil (hk : k ∈ s.tokens) : s.foldedTokens k [] = s.tokens := by
  have hall : (s.tokens.filter fun t => !([] : List String).contains t.path) = s.tokens := by simp
  have hsame : ∀ t ∈ s.tokens, s.folded k [] t = t := by
    intro t ht
    by_cases hpath : t.path = k.path
    · obtain rfl := eq_of_path_eq ht hk hpath
      exact folded_survivor s t []
    · exact folded_third s [] hpath
  rw [foldedTokens, hall, List.map_congr_left hsame, List.map_id']

/-- A source that is not there any more changes nothing. -/
theorem foldedTokens_append_of_gone (h : p ∉ s.paths ∨ p ∈ before) :
    s.foldedTokens k (before ++ [p]) = s.foldedTokens k before := by
  have hsame : s.folded k (before ++ [p]) = s.folded k before := by
    funext t
    rw [folded, merged_append_of_gone h, folded]
  rw [foldedTokens, hsame, foldedTokens]
  congr 1
  refine List.filter_congr fun t ht => ?_
  have hout : t.path ∈ before ++ [p] ↔ t.path ∈ before := by
    rw [List.mem_append, List.mem_singleton]
    constructor
    · rintro (hmem | rfl)
      · exact hmem
      · exact h.resolve_left fun hmissing => hmissing (path_mem_paths ht)
    · exact .inl
  simp only [List.contains_eq_mem, hout]

/-- A source that is there is folded in as the sources before have left it. -/
theorem foldedTokens_append_of_new (hu : u ∈ s.tokens) (hne : u.path ≠ k.path)
    (h : u.path ∉ before) :
    s.foldedTokens k (before ++ [u.path]) =
      ((s.foldedTokens k before).filter fun t => t.path != u.path).map
        (Token.foldInto (s.folded k before k) (s.folded k before u)) := by
  have hstep : ∀ t, s.folded k (before ++ [u.path]) t =
      Token.foldInto (s.folded k before k) (s.folded k before u) (s.folded k before t) := by
    intro t
    by_cases hpath : t.path = k.path
    · simp only [Token.foldInto, folded_path, if_pos hpath]
      rw [folded, if_pos hpath, merged_append_of_new hu h, Token.absorb_append_singleton,
        folded_survivor, folded_third s before hne, List.nil_append]
    · simp only [Token.foldInto, folded_path, if_neg hpath]
      rw [folded_third s _ hpath, merged_append_of_new hu h, List.map_append, List.map_singleton,
        Token.followInto_append_singleton, folded_third s _ hpath]
  calc
    s.foldedTokens k (before ++ [u.path])
        = ((s.tokens.filter fun t => !before.contains t.path).filter
            fun t => t.path != u.path).map (s.folded k (before ++ [u.path])) := by
          rw [foldedTokens, List.filter_filter]
          congr 1
          refine List.filter_congr fun t _ => ?_
          rw [List.contains_append, Bool.not_or, Bool.and_comm]
          congr 1
          by_cases hpath : t.path = u.path <;> simp [hpath]
    _ = (((s.tokens.filter fun t => !before.contains t.path).filter
          fun t => t.path != u.path).map (s.folded k before)).map
            (Token.foldInto (s.folded k before k) (s.folded k before u)) := by
          rw [List.map_map]
          exact List.map_congr_left fun t _ => hstep t
    _ = ((s.foldedTokens k before).filter fun t => t.path != u.path).map
          (Token.foldInto (s.folded k before k) (s.folded k before u)) := by
          rw [foldedTokens, List.filter_map]
          congr 3
          funext t
          simp

/-- One more source is folded in, or it is not there any more and nothing happens. -/
theorem tokens_mergeSource_of_folded (hk : k ∈ s.tokens) (hbefore : k.path ∉ before)
    (hp : p ≠ k.path) (h : s₁.tokens = s.foldedTokens k before)
    (hstep : s₁.mergeSource false k.path p = (s', .ok op)) :
    s'.tokens = s.foldedTokens k (before ++ [p]) := by
  have hpaths : s₁.paths = s.paths.filter fun p => !before.contains p := by
    rw [paths, h, paths_foldedTokens]
  by_cases hthere : p ∈ s.paths ∧ p ∉ before
  · rcases hthere with ⟨hmem, hnew⟩
    rcases mem_paths.mp hmem with ⟨u, hu, rfl⟩
    have hk₁ : s.folded k before k ∈ s₁.tokens := h ▸ folded_mem_foldedTokens k hk hbefore
    have hu₁ : s.folded k before u ∈ s₁.tokens := h ▸ folded_mem_foldedTokens k hu hnew
    rcases tokens_mergeSource hk₁ hu₁ with ⟨s₂, op', hrun, htokens⟩
    simp only [folded_path] at hrun htokens
    rw [hstep] at hrun
    cases hrun
    rw [htokens, h, foldedTokens_append_of_new hu hp hnew]
  · have hgone : p ∉ s.paths ∨ p ∈ before := by tauto
    have hmissing : s₁.contains p = false := by
      rw [contains_eq_false_iff, hpaths, List.mem_filter]
      simpa using fun hmem => hgone.resolve_left fun hnot => hnot hmem
    have hsame : s' = s₁ := by
      simp only [mergeSource, hmissing, Bool.not_false, if_true, failed] at hstep
      cases hstep
      rfl
    rw [hsame, h, foldedTokens_append_of_gone hgone]

/-- A run over some sources folds them into the survivor. -/
theorem tokens_of_mergeRun (hk : k ∈ s.tokens) (hout : k.path ∉ sources)
    (h : TargetRun (mergeSource false k.path) sources s s' ops) :
    s'.tokens = s.foldedTokens k sources := by
  -- Some sources have been folded in already, so the statement is about any such start.
  have hrun : ∀ {s₁ : OpenStore} {before : List String}, k.path ∉ before →
      s₁.tokens = s.foldedTokens k before →
      TargetRun (mergeSource false k.path) sources s₁ s' ops →
      s'.tokens = s.foldedTokens k (before ++ sources) := by
    clear h
    intro s₁ before hbefore hfolded h
    generalize hstep : (mergeSource false k.path : TargetStep String) = step at h
    induction h generalizing before with
    | nil s₁ => simpa using hfolded
    | @cons p sources s₁ s₂ s' op rest hop _ ih =>
      have hp : p ≠ k.path := Ne.symm (List.ne_of_not_mem_cons hout)
      have hnext : k.path ∉ before ++ [p] := by simp [hbefore, Ne.symm hp]
      have hfolded' := tokens_mergeSource_of_folded hk hbefore hp hfolded (hstep ▸ hop)
      simpa using ih (List.not_mem_of_not_mem_cons hout) hnext hfolded'
  exact hrun List.not_mem_nil (foldedTokens_nil hk).symm h

/-! ## Paths and operations -/

/-- A step removes its source, and it succeeds exactly if the source is there. -/
theorem paths_mergeSource (h : s.mergeSource false keep p = (s', .ok op)) :
    op.path = p ∧ (op.succeeded = true ↔ p ∈ s.paths) ∧
      s'.paths = s.paths.filter fun q => q != p := by
  by_cases hp : p ∈ s.paths
  · rcases mergeSource_eq_ok keep hp with ⟨s₁, op₁, hrun, hsucceeded, hpaths, _⟩
    have hpath : op.path = p := by
      simp only [mergeSource, contains_iff.mpr hp, Bool.not_true, Bool.false_eq_true, if_false] at h
      cases h
      rfl
    rw [h] at hrun
    cases hrun
    exact ⟨hpath, iff_of_true hsucceeded hp, hpaths⟩
  · simp only [mergeSource, contains_eq_false_iff.mpr hp, Bool.not_false, if_true, failed] at h
    cases h
    refine ⟨rfl, iff_of_false (by simp [Operation.succeeded]) hp, ?_⟩
    refine (List.filter_eq_self.mpr fun q hq => ?_).symm
    simpa using fun heq : q = p => hp (heq ▸ hq)

/-- A run removes all its sources, the survivor too if that is one of them, and the operations that
succeed are those of the paths that disappear. -/
theorem paths_of_mergeRun (h : TargetRun (mergeSource false keep) sources s s' ops) :
    ops.map Operation.path = sources ∧ (s'.paths = s.paths.filter fun p => !sources.contains p) ∧
      ∀ p, (∃ op ∈ ops, op.succeeded = true ∧ op.path = p) ↔ p ∈ sources ∧ p ∈ s.paths := by
  generalize hstep : (mergeSource false keep : TargetStep String) = step at h
  induction h with
  | nil s => simp
  | @cons q sources s s₁ s' op rest hop _ ih =>
    rcases ih with ⟨hrest, hpaths, hiff⟩
    rcases paths_mergeSource (hstep ▸ hop) with ⟨hpath, hsucceeded, hfirst⟩
    refine ⟨by rw [List.map_cons, hpath, hrest], ?_, fun p => ?_⟩
    · rw [hpaths, hfirst, Text.filter_ne_eq_outside, Text.filter_outside_append]
      rfl
    · have hleft : p ∈ s₁.paths ↔ p ∈ s.paths ∧ p ≠ q := by simp [hfirst]
      have hsplit : (∃ o ∈ op :: rest, o.succeeded = true ∧ o.path = p) ↔
          (op.succeeded = true ∧ op.path = p) ∨ ∃ o ∈ rest, o.succeeded = true ∧ o.path = p := by
        simp only [List.mem_cons, exists_eq_or_imp]
      rw [hsplit, hiff, hsucceeded, hpath, hleft, List.mem_cons]
      -- After its turn the source is not there, so no later operation on it succeeds.
      by_cases hp : p = q
      · simp [hp]
      · simp [hp, Ne.symm hp]

/-- What was merged is what disappeared. -/
theorem mem_paths_merged_iff (hpaths : s'.paths = s.paths.filter fun p => !sources.contains p) :
    p ∈ (s.merged sources).map Token.path ↔ p ∈ s.paths ∧ p ∉ s'.paths := by
  rw [mem_paths_merged, hpaths, List.mem_filter]
  by_cases hp : p ∈ sources <;> simp [hp]

/-! ## The merge action -/

/-- With a survivor and something to merge into it, a merge goes through its sources. -/
theorem runAction_merge {a : Action} (hkind : a.kind = .merge)
    (htargets : a.targets = keep :: sources) (hsources : sources ≠ []) (hkeep : keep ∈ s.paths) :
    s.runAction false a = forTargets (mergeSource false keep) sources s := by
  cases sources with
  | nil => exact absurd rfl hsources
  | cons source sources => simp [runAction, hkind, htargets, merge, contains_iff.mpr hkeep]

end Store

end DesignTokens
