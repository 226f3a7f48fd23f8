import DesignTokens.Proofs.Audit.Findings
import DesignTokens.Proofs.Migration.Failures
import DesignTokens.Proofs.Migration.Orders
import DesignTokens.Proofs.Migration.Planned
import DesignTokens.Proofs.Naming.Lenient

/-!
# Taking up the suggestions for a store

The suggestions for a store lead from paths that cannot be read strictly to canonical paths that are
free.  None of them is in the way of another, so a rename along all of them succeeds in whatever
order it goes through them, and every move makes one more token compliant.

Canonical paths are clean.  If no path of the store has a brace either, then the order makes no
difference to the tokens that are left.
-/

namespace DesignTokens

open Reference

/-! ## Canonical paths are clean -/

namespace Naming

variable {n : Name} {path word q : String}

theorem IsOwnWord.isClean (h : IsOwnWord word) : IsClean word := by
  refine ⟨h.ne_empty, fun c hc => ?_⟩
  have hbounds : (97 ≤ c.toNat ∧ c.toNat ≤ 122) ∨ (48 ≤ c.toNat ∧ c.toNat ≤ 57) := h.plain c hc
  have hbrace : c ≠ '{' ∧ c ≠ '}' := by
    constructor <;> rintro rfl <;> exact absurd hbounds (by decide)
  refine ⟨by simp [isBrace, hbrace], ?_⟩
  simp only [Text.isBlank, Bool.or_eq_false_iff, Bool.and_eq_false_imp, decide_eq_true_eq,
    decide_eq_false_iff_not, Nat.not_le, beq_eq_false_iff_ne, ne_eq]
  omega

theorem isClean_intercalate {parts : List String} (hne : parts ≠ [])
    (hparts : ∀ part ∈ parts, IsClean part) : IsClean (".".intercalate parts) := by
  induction parts with
  | nil => exact absurd rfl hne
  | cons a parts ih =>
    have ha : IsClean a := hparts a List.mem_cons_self
    cases parts with
    | nil => simpa using ha
    | cons b parts =>
      have hrest := ih (List.cons_ne_nil b parts) fun part hpart =>
        hparts part (List.mem_cons_of_mem a hpart)
      rw [String.intercalate_cons_cons]
      refine ⟨by simp, fun c hc => ?_⟩
      simp only [String.toList_append, List.mem_append] at hc
      rcases hc with (hc | hc) | hc
      · exact ha.2 c hc
      · have hdot : c = '.' := by simpa using hc
        exact hdot ▸ by decide
      · exact hrest.2 c hc

theorem HasSpelling.isClean_intent (h : HasSpelling n) : IsClean n.intent.id := by
  rcases h with hcatalog | ⟨word, hintent, _, hword⟩
  · have hall : ∀ i ∈ Intent.catalog, IsClean i.id := by decide +kernel
    exact hall n.intent hcatalog
  · rw [hintent]
    exact hword.isClean

/-- The canonical path of a name that has a spelling is clean. -/
theorem HasSpelling.isClean_path (h : HasSpelling n) : IsClean n.path := by
  have hclass : ∀ c : PropertyClass, IsClean c.id := by
    intro c
    cases c <;> decide +kernel
  have hcontext : ∀ x : UxContext, IsClean x.id := by
    intro x
    cases x <;> decide +kernel
  have hmodifier : ∀ m : Emphasis, IsClean m.id := by
    intro m
    cases m <;> decide +kernel
  have hstate : ∀ s : InteractionState, IsClean s.id := by
    intro s
    cases s <;> decide +kernel
  refine isClean_intercalate (by simp [Name.segments]) fun part hpart => ?_
  simp only [Name.segments, List.mem_append, List.mem_singleton, Option.mem_toList,
    Option.map_eq_some_iff] at hpart
  rcases hpart with (((rfl | ⟨x, _, rfl⟩) | rfl) | ⟨m, _, rfl⟩) | ⟨s, _, rfl⟩
  · exact hclass _
  · exact hcontext x
  · exact h.isClean_intent
  · exact hmodifier m
  · exact hstate s

/-- A path that can be read is not empty; what it is read as is clean and can be read strictly. -/
theorem of_suggestedPath? (h : suggestedPath? path = some q) :
    path ≠ "" ∧ IsClean q ∧ (strict? q).isSome = true := by
  rcases Option.map_eq_some_iff.mp h with ⟨r, hr, rfl⟩
  have hspelling := hasSpelling_of_read? hr
  refine ⟨?_, hspelling.isClean_path, by rw [strict?_path_iff.mpr hspelling, Option.isSome_some]⟩
  rintro rfl
  cases hr

end Naming

/-! ## Renames along suggestions -/

variable {α : Type}

/-- A rename of the sources of some suggestions, one after the other in some order, to their
targets.  From some point on the new paths may be left to be inferred. -/
def Action.TakesUp (a : Action) (cs : List (Suggestion α)) : Prop :=
  a.kind = .rename ∧ ∃ order : List (Suggestion α), order.Perm cs ∧
    a.targets = order.map Suggestion.source ∧ a.newPaths <+: order.map Suggestion.target

namespace Store

open Operation

variable {s s' : OpenStore} {ops : List Operation} {cs order : List (Suggestion α)} {p q : String}

/-- Suggestions that lead from different paths of a store, which are not compliant, to different
compliant paths that are not in it. -/
structure Invites (s : OpenStore) (cs : List (Suggestion α)) : Prop where
  sources_nodup : (cs.map Suggestion.source).Nodup
  source_mem : ∀ c ∈ cs, c.source ∈ s.paths
  source_unread : ∀ c ∈ cs, Naming.strict? c.source = none
  targets_nodup : (cs.map Suggestion.target).Nodup
  target_free : ∀ c ∈ cs, c.target ∉ s.paths
  target_read : ∀ c ∈ cs, (Naming.strict? c.target).isSome = true
  inferred : ∀ c ∈ cs, Naming.suggestedPath? c.source = some c.target

theorem invites_suggestions [Scalar α] (s : OpenStore) (g : Naming.Grading α) (least : α) :
    s.Invites (s.suggestions g least) := by
  rcases s.suggestions_spec g least with ⟨hsub, htargets, hfree⟩
  rcases s.sources_suggestions g least with ⟨hsources, hmem⟩
  have hread := fun c hc => s.of_mem_candidates g least (hsub.subset (a := c) hc)
  exact
    { sources_nodup := hsources
      source_mem := hmem
      source_unread := fun c hc => (hread c hc).1
      targets_nodup := htargets
      target_free := hfree
      target_read := fun c hc => (Naming.of_suggestedPath? (hread c hc).2).2.2
      inferred := fun c hc => (hread c hc).2 }

theorem Invites.perm (h : s.Invites cs) (hperm : order.Perm cs) : s.Invites order where
  sources_nodup := (hperm.map _).nodup_iff.mpr h.sources_nodup
  source_mem c hc := h.source_mem c (hperm.mem_iff.mp hc)
  source_unread c hc := h.source_unread c (hperm.mem_iff.mp hc)
  targets_nodup := (hperm.map _).nodup_iff.mpr h.targets_nodup
  target_free c hc := h.target_free c (hperm.mem_iff.mp hc)
  target_read c hc := h.target_read c (hperm.mem_iff.mp hc)
  inferred c hc := h.inferred c (hperm.mem_iff.mp hc)

theorem Invites.independent (h : s.Invites cs) : Independent (suggestedMoves cs) :=
  independent_suggestedMoves h.sources_nodup h.source_mem h.target_free

theorem Invites.sources_mem (h : s.Invites cs) : ∀ b ∈ suggestedMoves cs, b.1 ∈ s.paths := by
  intro b hb
  rcases List.mem_map.mp hb with ⟨c, hc, rfl⟩
  exact h.source_mem c hc

/-! ## One order -/

/-- Two lists of targets whose steps do the same one by one. -/
theorem forTargets_congr {β γ : Type} {step : TargetStep β} {step' : TargetStep γ} {bs : List β}
    {bs' : List γ} (h : List.Forall₂ (fun b b' => ∀ s, step s b = step' s b') bs bs')
    (s : OpenStore) : forTargets step bs s = forTargets step' bs' s := by
  induction h generalizing s with
  | nil => rfl
  | cons hstep _ ih => simp only [forTargets, hstep, ih]

theorem renameTarget_inferred (h : Naming.suggestedPath? p = some q) (s : OpenStore) :
    s.renameTarget false (p, none) = moveTo .rename s (p, q) := by
  cases hp : s.contains p <;> simp [renameTarget, moveTo, hp, h]

/-- Whether a new path is given or inferred, the rename moves along the suggestions. -/
theorem Invites.runAction_eq {a : Action} (h : s.Invites order) (hkind : a.kind = .rename)
    (htargets : a.targets = order.map Suggestion.source)
    (hnew : a.newPaths <+: order.map Suggestion.target) :
    s.runAction false a = forTargets (moveTo .rename) (suggestedMoves order) s := by
  rw [runAction, hkind]
  refine forTargets_congr (List.forall₂_iff_get.mpr ⟨?_, fun i hi hi' s' => ?_⟩) s
  · simp [renameTargets, htargets, suggestedMoves]
  · have hlength : i < order.length := by simpa [suggestedMoves] using hi'
    have hpair : (renameTargets a).get ⟨i, hi⟩ = (order[i].source, a.newPaths[i]?) := by
      simp [renameTargets, htargets]
    have hmove : (suggestedMoves order).get ⟨i, hi'⟩ = (order[i].source, order[i].target) := by
      simp [suggestedMoves]
    rw [hpair, hmove]
    cases hgiven : a.newPaths[i]? with
    | none => exact renameTarget_inferred (h.inferred _ (List.getElem_mem hlength)) s'
    | some q =>
      -- The given paths are the first targets.
      obtain ⟨hlisted, rfl⟩ := List.getElem?_eq_some_iff.mp hgiven
      rw [hnew.getElem hlisted, List.getElem_map]
      exact renameTarget_eq_moveTo s' _ _

/-- Moves along the suggestions all succeed, and each makes one more token compliant. -/
theorem Invites.moves_succeed (h : s.Invites cs)
    (hrun : TargetRun (moveTo .rename) (suggestedMoves cs) s s' ops) :
    AllSucceeded ops ∧ s'.names.length = s.names.length + cs.length := by
  have hmoved := moves_run hrun h.independent h.sources_mem
  have htargets : (suggestedMoves cs).map Prod.snd = cs.map Suggestion.target := by
    simp [suggestedMoves, Function.comp_def]
  have hall : AllSucceeded ops := by
    rw [hmoved.succeeded, htargets, List.nodup_append]
    refine ⟨s.nodup_paths, h.targets_nodup, fun x hx y hy heq => ?_⟩
    rcases List.mem_map.mp hy with ⟨c, hc, rfl⟩
    exact h.target_free c hc (heq ▸ hx)
  refine ⟨hall, ?_⟩
  -- What has left the store was not compliant, and what has come in is.
  have hleft : (s.paths.filter fun p =>
      !((suggestedMoves cs).map Prod.fst).contains p).filterMap Naming.strict? = s.names := by
    rw [names, List.filterMap_filter]
    refine List.filterMap_congr fun p _ => ?_
    split
    · rfl
    · next hgone =>
      have hmem : p ∈ (suggestedMoves cs).map Prod.fst := by simpa using hgone
      rcases List.mem_map.mp hmem with ⟨b, hb, rfl⟩
      rcases List.mem_map.mp hb with ⟨c, hc, rfl⟩
      exact (h.source_unread c hc).symm
  have hcame : ((cs.map Suggestion.target).filterMap Naming.strict?).length = cs.length := by
    rw [List.filterMap_length_eq_length.mpr fun q hq => ?_, List.length_map]
    rcases List.mem_map.mp hq with ⟨c, hc, rfl⟩
    exact h.target_read c hc
  rw [names, hmoved.paths hall, List.filterMap_append, List.length_append, hleft, htargets, hcame]

/-- A rename that takes the suggestions up runs along them in its own order. -/
theorem Invites.exists_run {a : Action} (h : s.Invites cs) (ha : a.TakesUp cs) :
    ∃ order s' ops, order.Perm cs ∧ s.runAction false a = (s', .ok ops) ∧
      TargetRun (moveTo .rename) (suggestedMoves order) s s' ops := by
  rcases ha with ⟨hkind, order, hperm, htargets, hnew⟩
  rcases exists_runAction s false a with ⟨s', ops, hrun⟩
  refine ⟨order, s', ops, hperm, hrun, forTargets_eq_ok_iff.mp ?_⟩
  rw [← (h.perm hperm).runAction_eq hkind htargets hnew, hrun]

/-! ## Every order -/

theorem Invites.plain (h : s.Invites cs)
    (hbrace : ∀ p ∈ s.paths, ∀ ch ∈ p.toList, isBrace ch = false) :
    ∀ b ∈ suggestedMoves cs, IsPlain b.1 b.2 := by
  intro b hb
  rcases List.mem_map.mp hb with ⟨c, hc, rfl⟩
  rcases Naming.of_suggestedPath? (h.inferred c hc) with ⟨hne, hclean, _⟩
  exact ⟨hne, hbrace c.source (h.source_mem c hc), hclean⟩

section

variable [Scalar α] {g : Naming.Grading α} (hsound : g.isSound = true)
include hsound

theorem suggestions?_eq_ok (s : OpenStore) (least : α) :
    s.suggestions? g least = .ok (s.suggestions g least) := by
  rw [suggestions?, Naming.Grading.ensureGradable_of_isSound hsound]
  rfl

theorem runAction?_eq_ok (s : OpenStore) (a : Action) :
    s.runAction? g false a = .ok (s.runAction false a) := by
  rw [runAction?, Naming.Grading.ensureGradable_of_isSound hsound]
  split <;> rfl

/-- With a sound grading the suggestions for a store lead from different paths that cannot be read
strictly to different free paths that can.  A rename that takes them all up succeeds with each of
them, whatever its order, and adds as many compliant tokens as there are suggestions.  If no path of
the store has a brace then all orders leave the same tokens. -/
theorem suggestions_apply_in_any_order (s : OpenStore) (least : α) :
    ∃ cs, s.suggestions? g least = .ok cs ∧ s.Invites cs ∧
      (∀ a : Action, a.TakesUp cs → ∃ s' ops, s.runAction? g false a = .ok (s', .ok ops) ∧
        ops.length = cs.length ∧ AllSucceeded ops ∧
        s'.names.length = s.names.length + cs.length) ∧
      ((∀ p ∈ s.paths, ∀ ch ∈ p.toList, isBrace ch = false) →
        ∀ (a a' : Action) (s₁ s₂ : OpenStore) (r₁ r₂ : Except StoreError (List Operation)),
          a.TakesUp cs → a'.TakesUp cs → s.runAction? g false a = .ok (s₁, r₁) →
          s.runAction? g false a' = .ok (s₂, r₂) → s₁.tokens.Perm s₂.tokens) := by
  have hinvites := s.invites_suggestions g least
  refine ⟨_, suggestions?_eq_ok hsound s least, hinvites, fun a ha => ?_, ?_⟩
  · obtain ⟨order, s', ops, hperm, haction, hrun⟩ := hinvites.exists_run ha
    obtain ⟨hall, hnames⟩ := (hinvites.perm hperm).moves_succeed hrun
    have hlength := length_of_forTargets (forTargets_eq_ok_iff.mpr hrun)
    rw [suggestedMoves, List.length_map, hperm.length_eq] at hlength
    rw [hperm.length_eq] at hnames
    exact ⟨s', ops, by rw [runAction?_eq_ok hsound, haction], hlength, hall, hnames⟩
  · intro hbrace a a' s₁ s₂ r₁ r₂ ha ha' h₁ h₂
    obtain ⟨order, _, _, hperm, haction, hrun⟩ := hinvites.exists_run ha
    obtain ⟨order', _, _, hperm', haction', hrun'⟩ := hinvites.exists_run ha'
    rw [runAction?_eq_ok hsound, haction] at h₁
    rw [runAction?_eq_ok hsound, haction'] at h₂
    cases h₁
    cases h₂
    have horder := hinvites.perm hperm
    -- Both runs make the same moves, in two orders.
    exact moves_in_any_order hrun hrun' ((hperm.trans hperm'.symm).map _) horder.independent
      horder.sources_mem (horder.plain hbrace) (horder.moves_succeed hrun).1
      ((hinvites.perm hperm').moves_succeed hrun').1

end

/-- Two tokens under aliases that refer to each other, one of them also to itself, and a compliant
one whose text is one of their paths. -/
def crossedAliases : OpenStore :=
  ⟨[{ path := "bg.base", value := .text "\x7bfg.base\x7d" },
    { path := "fg.base"
      value := .shadow "1px \x7bbg.base\x7d \x7b fg.base \x7d"
      resolved := some (.text "old") },
    { path := "background.accent", value := .text "bg.base" }], by decide⟩

/-- One rename lists the new paths and another goes the other way round and infers them; both leave
the same tokens, and all three are compliant. -/
theorem suggestions_apply_in_any_order_crossedAliases :
    ∃ (g : Naming.Grading Rat) (a a' : Action) (s₁ s₂ : OpenStore) (ops₁ ops₂ : List Operation),
      g.isSound = true ∧ a.targets = ["bg.base", "fg.base"] ∧
      a'.targets = ["fg.base", "bg.base"] ∧
      (∀ p ∈ crossedAliases.paths, ∀ ch ∈ p.toList, isBrace ch = false) ∧
      crossedAliases.runAction? g false a = .ok (s₁, .ok ops₁) ∧
      crossedAliases.runAction? g false a' = .ok (s₂, .ok ops₂) ∧
      ops₁.length = 2 ∧ AllSucceeded ops₁ ∧ ops₂.length = 2 ∧ AllSucceeded ops₂ ∧
      s₁.names.length = 3 ∧ s₁.tokens.Perm s₂.tokens := by
  let g : Naming.Grading Rat := .standard
  have hsound : g.isSound = true := by decide +kernel
  have hclean : ∀ p ∈ crossedAliases.paths, IsClean p := by decide +kernel
  have hbrace : ∀ p ∈ crossedAliases.paths, ∀ ch ∈ p.toList, isBrace ch = false :=
    fun p hp ch hch => ((hclean p hp).2 ch hch).1
  obtain ⟨cs, hcs, _, hsucceed, hsame⟩ :=
    suggestions_apply_in_any_order hsound crossedAliases (1 / 2)
  rw [suggestions?_eq_ok hsound, Except.ok.injEq] at hcs
  -- The candidates are found in the order in which they are ranked.
  have hsorted : crossedAliases.candidates g (1 / 2) =
      (crossedAliases.paths.filterMap (Suggestion.ofPath? g)).filter fun c =>
        !decide (c.confidence < 1 / 2) := List.mergeSort_of_pairwise (by decide +kernel)
  obtain ⟨hsources, htargets⟩ : cs.map Suggestion.source = ["bg.base", "fg.base"] ∧
      cs.map Suggestion.target = ["background.base", "text.base"] := by
    rw [← hcs, suggestions, hsorted]
    decide +kernel
  have hlength : cs.length = 2 := by simpa using congrArg List.length hsources
  let a : Action :=
    { id := "", kind := .rename, description := ""
      targets := ["bg.base", "fg.base"], newPaths := ["background.base", "text.base"] }
  let a' : Action :=
    { id := "", kind := .rename, description := "", targets := ["fg.base", "bg.base"] }
  have ha : a.TakesUp cs := ⟨rfl, cs, .refl cs, hsources.symm, htargets ▸ List.prefix_rfl⟩
  have ha' : a'.TakesUp cs :=
    ⟨rfl, cs.reverse, List.reverse_perm cs, by rw [List.map_reverse, hsources]; rfl,
      List.nil_prefix⟩
  obtain ⟨s₁, ops₁, hrun₁, hops₁, hall₁, hnames⟩ := hsucceed a ha
  obtain ⟨s₂, ops₂, hrun₂, hops₂, hall₂, _⟩ := hsucceed a' ha'
  have hbefore : crossedAliases.names.length = 1 := by decide +kernel
  exact ⟨g, a, a', s₁, s₂, ops₁, ops₂, hsound, rfl, rfl, hbrace, hrun₁, hrun₂,
    hops₁.trans hlength, hall₁, hops₂.trans hlength, hall₂, by rw [hnames, hbefore, hlength],
    hsame hbrace a a' s₁ s₂ _ _ ha ha' hrun₁ hrun₂⟩

end Store
end DesignTokens
