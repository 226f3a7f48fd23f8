import DesignTokens.Proofs.Migration.Paths
import DesignTokens.Proofs.Store.Recognition

/-!
# Deletions

A token is only deleted while no other token refers to it.  Hence whatever is left after a deletion,
or after any number of them, refers to nothing that was deleted, and every token that is left has
the targets that it had before: a path by itself counts as a target as long as the store has it, and
none of those is taken away.
-/

namespace DesignTokens
namespace Store

variable {s s₁ s₂ s' : OpenStore} {p q : String} {gone more targets : List String} {t : Token}
  {ops : List Operation}

/-! ## Pruned stores -/

/-- The second store is the first without its tokens at some paths, to none of which a token that
is left refers. -/
structure Pruned (s : OpenStore) (gone : List String) (s' : OpenStore) : Prop where
  tokens : s'.tokens = s.tokens.filter fun t => !gone.contains t.path
  present : ∀ p ∈ gone, p ∈ s.paths
  unreferenced : ∀ t ∈ s'.tokens, ∀ p ∈ gone, t.references p = false

namespace Pruned

theorem refl (s : OpenStore) : Pruned s [] s where
  tokens := by simp
  present p hp := absurd hp List.not_mem_nil
  unreferenced t _ p hp := absurd hp List.not_mem_nil

theorem mem_tokens_iff (h : Pruned s gone s') : t ∈ s'.tokens ↔ t ∈ s.tokens ∧ t.path ∉ gone := by
  simp [h.tokens]

theorem mem_paths_iff (h : Pruned s gone s') : p ∈ s'.paths ↔ p ∈ s.paths ∧ p ∉ gone := by
  rw [mem_paths, mem_paths]
  constructor
  · intro hleft
    rcases hleft with ⟨t, ht, rfl⟩
    rcases h.mem_tokens_iff.mp ht with ⟨hold, hout⟩
    exact ⟨⟨t, hold, rfl⟩, hout⟩
  · intro hold
    rcases hold with ⟨⟨t, ht, rfl⟩, hout⟩
    exact ⟨t, h.mem_tokens_iff.mpr ⟨ht, hout⟩, rfl⟩

theorem trans (h : Pruned s gone s₁) (h' : Pruned s₁ more s₂) : Pruned s (gone ++ more) s₂ where
  tokens := by
    rw [h'.tokens, h.tokens, List.filter_filter]
    refine List.filter_congr fun t _ => ?_
    rw [List.contains_append, Bool.not_or, Bool.and_comm]
  present p hp := by
    rcases List.mem_append.mp hp with hgone | hmore
    · exact h.present p hgone
    · exact (h.mem_paths_iff.mp (h'.present p hmore)).1
  unreferenced t ht p hp := by
    rcases List.mem_append.mp hp with hgone | hmore
    · exact h.unreferenced t (h'.mem_tokens_iff.mp ht).1 p hgone
    · exact h'.unreferenced t ht p hmore

/-- A token that is left refers to nothing that is gone, so a path that it refers to is known after
as before. -/
theorem contains_eq (h : Pruned s gone s') (ht : t ∈ s'.tokens) (href : t.references q = true) :
    s'.contains q = s.contains q := by
  have hout : q ∉ gone := by
    intro hgone
    rw [h.unreferenced t ht q hgone] at href
    cases href
  rw [Bool.eq_iff_iff, contains_iff, contains_iff, h.mem_paths_iff]
  exact and_iff_left hout

theorem targets_eq (h : Pruned s gone s') (ht : t ∈ s'.tokens) :
    t.targets s'.contains = t.targets s.contains :=
  Token.targets_congr fun _ href => h.contains_eq ht href

/-- No target of a token that is left goes missing. -/
theorem mem_paths_of_target (h : Pruned s gone s') (ht : t ∈ s'.tokens)
    (htarget : q ∈ t.targets s.contains) (hq : q ∈ s.paths) : q ∈ s'.paths := by
  by_cases hself : t.path = q
  · rw [← hself]
    exact path_mem_paths ht
  · have hknown := contains_iff.mpr hq
    have href := ((Token.mem_targets_iff_references hself hknown).mp htarget).1
    rw [← contains_iff, h.contains_eq ht href]
    exact hknown

end Pruned

/-! ## Deleting targets -/

/-- The paths of the operations that succeeded. -/
def succeededPaths (ops : List Operation) : List String :=
  (ops.filter Operation.succeeded).map Operation.path

/-- A deletion prunes its target, or it fails for a token that refers to the target or because there
is nothing to delete, and leaves the store alone. -/
theorem deleteTarget_cases (s : OpenStore) (p : String) :
    ∃ s' op, s.deleteTarget false p = (s', .ok op) ∧ op.path = p ∧
      (op.succeeded = true ∧ Pruned s [p] s' ∨
        op.succeeded = false ∧ s' = s ∧
          (p ∈ s.paths → ∃ t ∈ s.tokens, t.references p = true)) := by
  by_cases hp : p ∈ s.paths
  · by_cases hfree : ∀ t ∈ s.tokens, t.references p = false
    · refine ⟨_, _, deleteTarget_of_unreferenced hp hfree, rfl, .inl ⟨rfl, ?_⟩⟩
      refine ⟨?_, fun q hq => List.mem_singleton.mp hq ▸ hp, fun t ht q hq => ?_⟩
      · rw [tokens_erase]
        refine List.filter_congr fun t _ => ?_
        by_cases ht : t.path = p <;> simp [ht]
      · rw [tokens_erase] at ht
        rw [List.mem_singleton.mp hq]
        exact hfree t (List.mem_filter.mp ht).1
    · have hsome : ∃ t ∈ s.tokens, t.references p = true := by simpa using hfree
      rcases hsome with ⟨t, ht, href⟩
      exact ⟨_, _, deleteTarget_of_referenced hp ht href, rfl,
        .inr ⟨rfl, rfl, fun _ => ⟨t, ht, href⟩⟩⟩
  · have hmissing := contains_eq_false_iff.mpr hp
    refine ⟨s, { kind := .delete, path := p, fault := some (.notFound p) }, ?_, rfl,
      .inr ⟨rfl, rfl, fun hmem => absurd hmem hp⟩⟩
    simp [deleteTarget, hmissing, failed]

/-- A run of deletions prunes the targets whose operations succeeded. -/
theorem pruned_of_run (h : TargetRun (deleteTarget false) targets s s' ops) :
    ops.map Operation.path = targets ∧ Pruned s (succeededPaths ops) s' := by
  generalize hstep : (deleteTarget false : TargetStep String) = step at h
  induction h with
  | nil s => exact ⟨rfl, .refl s⟩
  | @cons p targets s s₁ s' op rest hop _ ih =>
    rcases deleteTarget_cases s p with ⟨s₂, op', hrun, hpath, hcases⟩
    rw [hstep, hop] at hrun
    cases hrun
    rcases ih with ⟨hpaths, hpruned⟩
    refine ⟨by rw [List.map_cons, hpath, hpaths], ?_⟩
    rcases hcases with ⟨hsucceeded, hfirst⟩ | ⟨hfailed, rfl, _⟩
    · have hboth : succeededPaths (op :: rest) = [p] ++ succeededPaths rest := by
        simp [succeededPaths, hsucceeded, hpath]
      rw [hboth]
      exact hfirst.trans hpruned
    · have hskip : succeededPaths (op :: rest) = succeededPaths rest := by
        simp [succeededPaths, hfailed]
      rw [hskip]
      exact hpruned

/-- A target to which nothing refers at first is gone in the end: deletions make no references. -/
theorem not_mem_paths_of_unreferenced (h : TargetRun (deleteTarget false) targets s s' ops)
    (hp : p ∈ targets) (hfree : ∀ t ∈ s.tokens, t.references p = false) : p ∉ s'.paths := by
  generalize hstep : (deleteTarget false : TargetStep String) = step at h
  induction h with
  | nil s => cases hp
  | @cons q targets s s₁ s' op rest hop hrest ih =>
    rcases deleteTarget_cases s q with ⟨s₂, op', hrun, _, hcases⟩
    rw [hstep, hop] at hrun
    cases hrun
    by_cases hlater : p ∈ targets
    · refine ih hlater fun t ht => ?_
      rcases hcases with ⟨_, hfirst⟩ | ⟨_, rfl, _⟩
      · exact hfree t (hfirst.mem_tokens_iff.mp ht).1
      · exact hfree t ht
    · obtain rfl : p = q := (List.mem_cons.mp hp).resolve_right hlater
      rw [← hstep] at hrest
      -- What is gone after its own turn does not come back.
      have hgone : p ∉ s₁.paths := by
        rcases hcases with ⟨_, hfirst⟩ | ⟨_, rfl, hreferred⟩
        · exact fun hleft => (hfirst.mem_paths_iff.mp hleft).2 List.mem_cons_self
        · intro hleft
          rcases hreferred hleft with ⟨t, ht, href⟩
          rw [hfree t ht] at href
          cases href
      exact fun hleft => hgone ((pruned_of_run hrest).2.mem_paths_iff.mp hleft).1

/-- Deleting never breaks a reference.  There is one operation for each target, the tokens that
disappear are those of the operations that succeeded, and those that are left are unchanged and in
their order.  Each of them has the targets that it had, and none of these that was there is now
missing.  A target to which nothing refers does disappear. -/
theorem delete_breaks_nothing (s : OpenStore) {a : Action} (hkind : a.kind = .delete) :
    ∃ s' ops, s.runAction false a = (s', .ok ops) ∧
      ops.map Operation.path = a.targets ∧
      (∀ p, p ∈ s.paths ∧ p ∉ s'.paths ↔ ∃ op ∈ ops, op.succeeded = true ∧ op.path = p) ∧
      s'.tokens.Sublist s.tokens ∧
      (∀ t ∈ s'.tokens, t.targets s'.contains = t.targets s.contains ∧
        ∀ q ∈ t.targets s.contains, q ∈ s.paths → q ∈ s'.paths) ∧
      ∀ p ∈ a.targets, (∀ t ∈ s.tokens, t.references p = false) → p ∉ s'.paths := by
  rcases exists_targetRun (exists_deleteTarget false) a.targets s with ⟨s', ops, hrun⟩
  rcases pruned_of_run hrun with ⟨hpaths, hpruned⟩
  refine ⟨s', ops, ?_, hpaths, fun p => ?_, ?_, fun t ht => ⟨hpruned.targets_eq ht, ?_⟩,
    fun p hp hfree => not_mem_paths_of_unreferenced hrun hp hfree⟩
  · rw [← forTargets_eq_ok_iff] at hrun
    simpa [runAction, hkind] using hrun
  · have hgone : p ∈ succeededPaths ops ↔ ∃ op ∈ ops, op.succeeded = true ∧ op.path = p := by
      simp [succeededPaths, and_assoc]
    rw [hpruned.mem_paths_iff, ← hgone]
    constructor
    · intro h
      by_contra hkept
      exact h.2 ⟨h.1, hkept⟩
    · intro h
      exact ⟨hpruned.present p h, fun hleft => hleft.2 h⟩
  · rw [hpruned.tokens]
    exact List.filter_sublist
  · intro q htarget hq
    exact hpruned.mem_paths_of_target ht htarget hq

/-- Tokens that refer to the first one in two ways, and one that refers to itself. -/
def guardedByReferences : OpenStore :=
  ⟨[{ path := "color.base", value := .color "#fff" },
    { path := "text.base", value := .text "\x7bcolor.base\x7d" },
    { path := "text.muted", value := .text "color.base" },
    { path := "text.link", value := .text "\x7btext.link\x7d" }], by decide⟩

/-- The first target is refused for its referrers, one of which goes later and once only; the token
that refers to itself goes too.  The bare reference that is left still counts. -/
theorem delete_breaks_nothing_guarded :
    ∃ (a : Action) (s' : OpenStore) (ops : List Operation), a.kind = .delete ∧
      a.targets = ["color.base", "text.base", "text.base", "text.link"] ∧
      guardedByReferences.runAction false a = (s', .ok ops) ∧
      ops.map Operation.succeeded = [false, true, false, true] ∧
      s'.paths = ["color.base", "text.muted"] ∧
      ∃ t ∈ s'.tokens, t.path = "text.muted" ∧ t.targets s'.contains = ["color.base"] := by
  let a : Action :=
    { id := "t.1", kind := .delete, description := ""
      targets := ["color.base", "text.base", "text.base", "text.link"] }
  rcases delete_breaks_nothing guardedByReferences (a := a) rfl with
    ⟨s', ops, hrun, _, _, hsublist, hleft, _⟩
  have hstore : (guardedByReferences.runAction false a).1 = s' := by rw [hrun]
  have houtcome : (guardedByReferences.runAction false a).2 = .ok ops := by rw [hrun]
  have hpaths : s'.paths = ["color.base", "text.muted"] := by
    rw [← hstore]
    decide +kernel
  have hmuted : "text.muted" ∈ s'.paths := by
    rw [hpaths]
    decide
  rcases mem_paths.mp hmuted with ⟨t, ht, hpath⟩
  -- A token that is left is one of the tokens from before.
  have hsame : t = guardedByReferences.tokens[2] :=
    eq_of_path_eq (hsublist.subset ht) (List.getElem_mem _) hpath
  refine ⟨a, s', ops, rfl, rfl, hrun, ?_, hpaths, t, ht, hpath, ?_⟩
  · have hops : ((guardedByReferences.runAction false a).2.toOption.getD []).map
        Operation.succeeded = [false, true, false, true] := by decide +kernel
    rwa [houtcome] at hops
  · rw [(hleft t ht).1, hsame]
    decide +kernel

end Store
end DesignTokens
