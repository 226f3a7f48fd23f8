import DesignTokens.Proofs.Store.Redirect

/-!
# Moving a token to a new path

A rename and a restructure both move a token after redirecting the references of all others to it.
The value of the moved token itself is left alone.  So a move to a clean path leaves no reference
to the old path behind, except that a token which named its own path still names it.
-/

namespace DesignTokens
namespace Store

variable {s s' : OpenStore} {t : Token} {source target : String} {op : Operation}

/-! ## One move -/

/-- What is recorded of a token that moved. -/
def movedOp (s : OpenStore) (kind : ActionKind) (source target : String) : Operation :=
  { kind, path := source, newPath := some target, updated := s.referrers source }

/-- The tokens after a token moved: it comes last, and the others have followed it with their
references. -/
def movedTokens (s : OpenStore) (t : Token) (target : String) : List Token :=
  ((s.tokens.map (Token.follow t.path target)).filter fun u => u.path != t.path) ++
    [{ t with path := target }]

theorem mem_movedTokens {v : Token} :
    v ∈ s.movedTokens t target ↔
      (∃ u ∈ s.tokens, u.path ≠ t.path ∧ u.follow t.path target = v) ∨
        v = { t with path := target } := by
  rw [movedTokens, List.mem_append, List.mem_singleton, List.mem_filter, List.mem_map]
  constructor
  · intro hmem
    rcases hmem with ⟨⟨u, hu, rfl⟩, hkept⟩ | hlast
    · exact .inl ⟨u, hu, by simpa using hkept, rfl⟩
    · exact .inr hlast
  · intro hmem
    rcases hmem with ⟨u, hu, hne, rfl⟩ | hlast
    · exact .inl ⟨⟨u, hu, rfl⟩, by simpa using hne⟩
    · exact .inr hlast

/-- A token moves to a free path. -/
theorem relocate_eq_ok (kind : ActionKind) (ht : t ∈ s.tokens) (hne : t.path ≠ target)
    (hfree : target ∉ s.paths) :
    ∃ s', s.relocate false kind t.path target = (s', .ok (s.movedOp kind t.path target)) ∧
      s'.tokens = s.movedTokens t target := by
  have hcontains : s.contains target = false := contains_eq_false_iff.mpr hfree
  -- The token itself is not among its referrers, so it is still there to be moved.
  have hkept : t ∈ (s.redirectAll (s.referrers t.path) t.path target).tokens := by
    rw [tokens_redirectAll_referrers]
    exact List.mem_map.mpr ⟨t, ht, Token.follow_self target t⟩
  obtain ⟨s', hmove, htokens⟩ := move_eq_ok hkept hne (by rwa [paths_redirectAll])
  refine ⟨s', ?_, ?_⟩
  · simp [relocate, hne, hcontains, hmove, movedOp]
  · rw [htokens, tokens_redirectAll_referrers, movedTokens]

/-- A move that is recorded with a new path took place. -/
theorem tokens_of_relocate {kind : ActionKind} (ht : t ∈ s.tokens)
    (h : s.relocate false kind t.path target = (s', .ok op)) (hmoved : op.newPath.isSome = true) :
    t.path ≠ target ∧ op = s.movedOp kind t.path target ∧ s'.tokens = s.movedTokens t target := by
  -- Staying in place and a taken target are recorded without a new path.
  by_cases hne : t.path = target
  · simp only [relocate, if_pos hne, Prod.mk.injEq, Except.ok.injEq] at h
    rcases h with ⟨_, rfl⟩
    cases hmoved
  · by_cases hfree : target ∈ s.paths
    · have hcontains := contains_iff.mpr hfree
      simp only [relocate, if_neg hne, if_pos hcontains, failed, Prod.mk.injEq,
        Except.ok.injEq] at h
      rcases h with ⟨_, rfl⟩
      cases hmoved
    · rcases relocate_eq_ok kind ht hne hfree with ⟨s₁, hrun, htokens⟩
      rw [hrun, Prod.mk.injEq, Except.ok.injEq] at h
      rcases h with ⟨rfl, rfl⟩
      exact ⟨hne, rfl, htokens⟩

/-! ## Renames and restructures -/

/-- One step of a rename or of a restructure that is run for real. -/
inductive MoveStep (s : OpenStore) (s' : OpenStore) (op : Operation) : Prop where
  | rename (path : String) (newPath : Option String)
      (h : s.renameTarget false (path, newPath) = (s', .ok op))
  | restructure (path : String) (h : s.restructureTarget false path = (s', .ok op))

/-- A step that is recorded with a new path moved a token of the store. -/
theorem MoveStep.relocates (h : MoveStep s s' op) (hmoved : op.newPath.isSome = true) :
    ∃ kind, ∃ t ∈ s.tokens, ∃ newPath,
      s.relocate false kind t.path newPath = (s', .ok op) := by
  cases h with
  | rename path newPath hrun =>
    by_cases hpath : s.contains path = true
    · rcases mem_paths.mp (contains_iff.mp hpath) with ⟨t, ht, rfl⟩
      simp only [renameTarget, hpath, Bool.not_true, Bool.false_eq_true, if_false] at hrun
      split at hrun
      · exact ⟨.rename, t, ht, _, hrun⟩
      · cases hrun
        cases hmoved
    · simp only [renameTarget, hpath, Bool.not_false, if_true] at hrun
      cases hrun
      cases hmoved
  | restructure path hrun =>
    by_cases hpath : s.contains path = true
    · rcases mem_paths.mp (contains_iff.mp hpath) with ⟨t, ht, rfl⟩
      simp only [restructureTarget, hpath, Bool.not_true, Bool.false_eq_true, if_false] at hrun
      split at hrun
      · exact ⟨.restructure, t, ht, _, hrun⟩
      · cases hrun
        cases hmoved
    · simp only [restructureTarget, hpath, Bool.not_false, if_true] at hrun
      cases hrun
      cases hmoved

/-- Such a step leaves the tokens of a move from the recorded path to the recorded new path. -/
theorem MoveStep.tokens_eq (h : MoveStep s s' op) (hmoved : op.newPath = some target) :
    ∃ t ∈ s.tokens, t.path = op.path ∧ t.path ≠ target ∧ s'.tokens = s.movedTokens t target := by
  obtain ⟨kind, t, ht, newPath, hrun⟩ := h.relocates (by simp [hmoved])
  obtain ⟨hne, rfl, htokens⟩ := tokens_of_relocate ht hrun (by simp [hmoved])
  cases hmoved
  exact ⟨t, ht, rfl, hne, htokens⟩

/-! ## What still refers to the old path -/

/-- After a move to a clean path only the moved token can refer to the old path, and it does so
exactly if it named its own path before. -/
theorem references_after_move (h : MoveStep s s' op) (hmoved : op.newPath = some target)
    (hclean : Reference.IsClean target) :
    (∀ t ∈ s'.tokens, t.references op.path = true → t.path = target) ∧
      ((∀ t ∈ s'.tokens, t.references op.path = false) ↔
        ∀ u ∈ s.tokens, u.path = op.path → u.mentions op.path = false) := by
  rcases h.tokens_eq hmoved with ⟨t, ht, hpath, hne, htokens⟩
  rw [← hpath]
  -- Every other token has followed, and a clean target names nothing else.
  have hothers : ∀ v ∈ s'.tokens, v.path ≠ target → v.references t.path = false := by
    intro v hv hvpath
    rw [htokens, mem_movedTokens] at hv
    rcases hv with ⟨u, _, hu, rfl⟩ | rfl
    · have hsilent := Token.not_mentions_follow hclean hne hu
      exact Bool.eq_false_iff.mpr fun href => by simp [Token.references_iff, hsilent] at href
    · exact absurd rfl hvpath
  have hlast : ({ t with path := target } : Token) ∈ s'.tokens := by
    rw [htokens]
    exact mem_movedTokens.mpr (.inr rfl)
  -- The moved token keeps its value, and with it what it mentions.
  have hmention : ({ t with path := target } : Token).references t.path = t.mentions t.path := by
    simp [Token.references, Token.mentions, Ne.symm hne]
  refine ⟨?_, ?_, ?_⟩
  · intro v hv href
    by_contra hvpath
    simp [hothers v hv hvpath] at href
  · intro hnone u hu hupath
    rw [eq_of_path_eq hu ht hupath, ← hmention]
    exact hnone _ hlast
  · intro hsilent v hv
    by_cases hvpath : v.path = target
    · have hvlast : v = { t with path := target } := eq_of_path_eq hv hlast hvpath
      rw [hvlast, hmention]
      exact hsilent t ht rfl
    · exact hothers v hv hvpath

/-- A store with one token, which names its own path between braces. -/
def selfNamed : OpenStore :=
  ⟨[{ path := "bg.base", value := .text "\x7bbg.base\x7d" }], by decide⟩

/-- When that token moves to its canonical path, it still refers to the old one. -/
theorem references_after_move_selfNamed :
    ∃ s' op, MoveStep selfNamed s' op ∧ op.newPath = some "background.base" ∧
      Reference.IsClean "background.base" ∧ ∃ t ∈ s'.tokens, t.references op.path = true := by
  have hop : (selfNamed.renameTarget false ("bg.base", none)).2 =
      .ok (selfNamed.movedOp .rename "bg.base" "background.base") := by rfl
  have hstep : MoveStep selfNamed (selfNamed.renameTarget false ("bg.base", none)).1
      (selfNamed.movedOp .rename "bg.base" "background.base") :=
    .rename "bg.base" none (Prod.ext rfl hop)
  have hclean : Reference.IsClean "background.base" := by decide
  have hexact := (references_after_move hstep rfl hclean).2
  refine ⟨_, _, hstep, rfl, hclean, ?_⟩
  by_contra hnone
  have hsilent := hexact.mp fun t ht => Bool.eq_false_iff.mpr fun href => hnone ⟨t, ht, href⟩
  exact absurd (hsilent _ List.mem_cons_self rfl) (by decide)

end Store
end DesignTokens
