import DesignTokens.Proofs.Migration.Merging

/-!
# The paths after a run

What a run over several targets does to the paths of an open store, and when all of it succeeds.
Creations succeed together exactly if no path is taken or named twice; so do moves that stay out of
each other's way, whose targets are then the new paths.  Merges of separate groups of existing
paths always succeed, and deletions succeed together exactly if nothing refers to a deleted path
but what was deleted before it.
-/

namespace DesignTokens

/-- No operation of a list failed. -/
def Operation.AllSucceeded (ops : List Operation) : Prop := ∀ op ∈ ops, op.succeeded = true

namespace Operation

variable {op : Operation} {ops rest : List Operation}

@[simp]
theorem allSucceeded_nil : AllSucceeded [] := fun _ h => absurd h List.not_mem_nil

@[simp]
theorem allSucceeded_cons :
    AllSucceeded (op :: ops) ↔ op.succeeded = true ∧ AllSucceeded ops := List.forall_mem_cons

@[simp]
theorem allSucceeded_append :
    AllSucceeded (ops ++ rest) ↔ AllSucceeded ops ∧ AllSucceeded rest := List.forall_mem_append

end Operation

namespace Store

open Operation

variable {β γ : Type} {s s' s'' : OpenStore} {ops : List Operation} {p q : String}

/-- A run over targets that are computed from others is a run over those. -/
theorem TargetRun.of_map {step : TargetStep β} {step' : TargetStep γ} {f : γ → β} {bs : List γ}
    (hstep : ∀ b ∈ bs, ∀ s, step s (f b) = step' s b) (h : TargetRun step (bs.map f) s s' ops) :
    TargetRun step' bs s s' ops := by
  induction bs generalizing s ops with
  | nil =>
    cases h
    exact .nil _
  | cons b bs ih =>
    cases h with
    | cons hop hrest =>
      rw [hstep b List.mem_cons_self] at hop
      exact .cons hop (ih (fun c hc => hstep c (List.mem_cons_of_mem _ hc)) hrest)

/-! ## Creations -/

section

variable {value description : String} {targets : List String}

theorem createTarget_of_mem (hp : p ∈ s.paths) :
    s.createTarget false value description p = s.failed .create p (.pathTaken p) := by
  simp [createTarget, contains_iff.mpr hp]

/-- A creation at a free path puts its token last. -/
theorem createTarget_eq_of_free (value description : String) (hp : p ∉ s.paths) :
    ∃ s', s.createTarget false value description p = (s', .ok { kind := .create, path := p }) ∧
      s'.tokens = s.tokens ++ [{ Token.ofRaw p value with description := some description }] := by
  let t : Token := { Token.ofRaw p value with description := some description }
  have hfree : t.path ∉ s.paths := hp
  refine ⟨s.insert t, ?_, tokens_insert_of_free hfree⟩
  simp only [createTarget, contains_eq_false_iff.mpr hp, Bool.false_eq_true, if_false]
  rw [insertNew_of_free hfree]

theorem createTarget_of_free (value description : String) (hp : p ∉ s.paths) :
    ∃ s' t, s.createTarget false value description p = (s', .ok { kind := .create, path := p }) ∧
      t.path = p ∧ s'.tokens = s.tokens ++ [t] := by
  obtain ⟨s', hrun, htokens⟩ := createTarget_eq_of_free value description hp
  exact ⟨s', _, hrun, rfl, htokens⟩

/-- What creations do to the paths: they all succeed exactly if their paths are free and distinct,
and then these are added. -/
structure Created (targets : List String) (s s' : OpenStore) (ops : List Operation) : Prop where
  succeeded : AllSucceeded ops ↔ (s.paths ++ targets).Nodup
  paths : AllSucceeded ops → s'.paths = s.paths ++ targets

/-- Creations one after the other are like all of them together. -/
theorem Created.append {targets' : List String} {rest : List Operation}
    (h : Created targets s s' ops) (h' : Created targets' s' s'' rest) :
    Created (targets ++ targets') s s'' (ops ++ rest) := by
  by_cases hall : AllSucceeded ops
  · have hpaths := h.paths hall
    constructor
    · rw [allSucceeded_append, and_iff_right hall, h'.succeeded, hpaths, List.append_assoc]
    · intro hrest
      rw [h'.paths (allSucceeded_append.mp hrest).2, hpaths, List.append_assoc]
  · have hnodup : ¬ (s.paths ++ (targets ++ targets')).Nodup := by
      rw [← List.append_assoc]
      exact fun hn => hall (h.succeeded.mpr (List.nodup_append.mp hn).1)
    have hsome : ¬ AllSucceeded (ops ++ rest) := fun hn => hall (allSucceeded_append.mp hn).1
    exact ⟨iff_of_false hsome hnodup, fun hn => absurd hn hsome⟩

/-- A single creation. -/
theorem created_of_createTarget {op : Operation}
    (hop : s.createTarget false value description p = (s', .ok op)) : Created [p] s s' [op] := by
  by_cases hp : p ∈ s.paths
  · rw [createTarget_of_mem hp] at hop
    cases hop
    have hfailed :
        ¬ AllSucceeded [{ kind := .create, path := p, fault := some (.pathTaken p) }] := by
      simp [Operation.succeeded]
    have hnodup : ¬ (s.paths ++ [p]).Nodup := fun hn =>
      (List.nodup_append.mp hn).2.2 p hp p List.mem_cons_self rfl
    exact ⟨iff_of_false hfailed hnodup, fun hn => absurd hn hfailed⟩
  · rcases createTarget_of_free value description hp with ⟨s₁, t, hrun, rfl, htokens⟩
    rw [hop] at hrun
    cases hrun
    have hnodup : (s.paths ++ [t.path]).Nodup := by
      simpa using List.Nodup.concat hp s.nodup_paths
    exact ⟨iff_of_true (by simp [Operation.succeeded]) hnodup, fun _ => by simp [paths, htokens]⟩

theorem creations_run (h : TargetRun (createTarget false value description) targets s s' ops) :
    Created targets s s' ops := by
  generalize hstep : createTarget false value description = step at h
  induction h with
  | nil s => exact ⟨by simp [s.nodup_paths], by simp⟩
  | cons hop _ ih =>
    rw [← hstep] at hop
    exact (created_of_createTarget hop).append ih

end

/-! ## Moves -/

/-- Moves a token from one path to another, if it is there. -/
def moveTo (kind : ActionKind) : TargetStep (String × String) := fun s b =>
  if s.contains b.1 then s.relocate false kind b.1 b.2 else s.failed kind b.1 (.notFound b.1)

theorem renameTarget_eq_moveTo (s : OpenStore) (p q : String) :
    s.renameTarget false (p, some q) = moveTo .rename s (p, q) := by
  cases hp : s.contains p <;> simp [renameTarget, moveTo, hp]

theorem restructureTarget_eq_moveTo {n : Name} (hn : Naming.strict? p = some n) (s : OpenStore) :
    s.restructureTarget false p = moveTo .restructure s (p, n.path) := by
  cases hp : s.contains p <;> simp [restructureTarget, moveTo, hp, hn]

section

variable {kind : ActionKind} {t : Token} {moves : List (String × String)}

theorem moveTo_of_missing (hp : p ∉ s.paths) :
    moveTo kind s (p, q) = s.failed kind p (.notFound p) := by
  simp [moveTo, contains_eq_false_iff.mpr hp]

theorem moveTo_of_taken (hp : p ∈ s.paths) (hne : p ≠ q) (hq : q ∈ s.paths) :
    moveTo kind s (p, q) = s.failed kind p (.pathTaken q) := by
  simp [moveTo, relocate, contains_iff.mpr hp, contains_iff.mpr hq, hne]

theorem moveTo_of_free (kind : ActionKind) (ht : t ∈ s.tokens) (hne : t.path ≠ q)
    (hq : q ∉ s.paths) :
    ∃ s', moveTo kind s (t.path, q) = (s', .ok (s.movedOp kind t.path q)) ∧
      s'.tokens = s.movedTokens t q := by
  rcases relocate_eq_ok kind ht hne hq with ⟨s', hrun, htokens⟩
  exact ⟨s', by simp [moveTo, contains_iff.mpr (path_mem_paths ht), hrun], htokens⟩

theorem paths_of_movedTokens (h : s'.tokens = s.movedTokens t q) :
    s'.paths = (s.paths.filter fun p => p != t.path) ++ [q] := by
  have hfollow : (s.tokens.map (Token.follow t.path q)).map Token.path = s.paths := by
    rw [List.map_map]
    exact List.map_congr_left fun u _ => u.follow_path t.path q
  rw [paths, h, movedTokens, List.map_append, ← hfollow,
    List.filter_map (f := Token.path) (p := fun p => p != t.path)]
  rfl

/-- Moves that stay out of each other's way: no path is left twice, and none that is left is moved
to. -/
structure Independent (moves : List (String × String)) : Prop where
  sources : (moves.map Prod.fst).Nodup
  apart : ∀ b ∈ moves, ∀ b' ∈ moves, b.1 ≠ b'.2

namespace Independent

variable {moves' : List (String × String)}

theorem sublist (h : Independent moves') (hsub : moves.Sublist moves') : Independent moves where
  sources := (hsub.map Prod.fst).nodup h.sources
  apart b hb b' hb' := h.apart b (hsub.subset hb) b' (hsub.subset hb')

theorem tail {b : String × String} (h : Independent (b :: moves)) : Independent moves :=
  h.sublist (List.sublist_cons_self b moves)

theorem left (h : Independent (moves ++ moves')) : Independent moves :=
  h.sublist (List.sublist_append_left moves moves')

theorem right (h : Independent (moves ++ moves')) : Independent moves' :=
  h.sublist (List.sublist_append_right moves moves')

theorem sources_apart (h : Independent (moves ++ moves')) (hp : p ∈ moves.map Prod.fst) :
    p ∉ moves'.map Prod.fst := by
  have hnodup := h.sources
  rw [List.map_append, List.nodup_append] at hnodup
  exact fun hp' => hnodup.2.2 p hp p hp' rfl

theorem not_mem_targets (h : Independent moves) (hp : p ∈ moves.map Prod.fst) :
    p ∉ moves.map Prod.snd := by
  rcases List.mem_map.mp hp with ⟨b, hb, rfl⟩
  intro hmem
  rcases List.mem_map.mp hmem with ⟨b', hb', heq⟩
  exact h.apart b hb b' hb' heq.symm

theorem perm (h : Independent moves) (hperm : moves.Perm moves') : Independent moves' where
  sources := (hperm.map Prod.fst).nodup_iff.mp h.sources
  apart b hb b' hb' := h.apart b (hperm.mem_iff.mpr hb) b' (hperm.mem_iff.mpr hb')

end Independent

/-- What moves do to the paths: they all succeed exactly if their targets are free and distinct, and
then they leave their sources for their targets. -/
structure Moved (moves : List (String × String)) (s s' : OpenStore) (ops : List Operation) :
    Prop where
  succeeded : AllSucceeded ops ↔ (s.paths ++ moves.map Prod.snd).Nodup
  paths : AllSucceeded ops → s'.paths =
    (s.paths.filter fun p => !(moves.map Prod.fst).contains p) ++ moves.map Prod.snd

/-- Moves one after the other are like all of them together, if none is in the way of another. -/
theorem Moved.append {moves' : List (String × String)} {rest : List Operation}
    (h : Moved moves s s' ops) (h' : (∀ b ∈ moves', b.1 ∈ s'.paths) → Moved moves' s' s'' rest)
    (hmoves : Independent (moves ++ moves')) (hsources : ∀ b ∈ moves', b.1 ∈ s.paths) :
    Moved (moves ++ moves') s s'' (ops ++ rest) := by
  by_cases hall : AllSucceeded ops
  · have hpaths := h.paths hall
    have hleft : ∀ b ∈ moves', b.1 ∈ s'.paths := by
      intro b hb
      rw [hpaths, List.mem_append, List.mem_filter]
      refine .inl ⟨hsources b hb, ?_⟩
      have hother : b.1 ∉ moves.map Prod.fst := fun hmem =>
        hmoves.sources_apart hmem (List.mem_map_of_mem hb)
      simpa using hother
    rcases h' hleft with ⟨hsecond, hpaths'⟩
    refine ⟨?_, fun hrest => ?_⟩
    · -- What the first moves left behind is no target, so it makes no difference to the others.
      have hnodup : (s'.paths ++ moves'.map Prod.snd).Nodup ↔
          ((s.paths ++ moves.map Prod.snd) ++ moves'.map Prod.snd).Nodup := by
        rw [hpaths, List.append_assoc, List.append_assoc]
        refine Text.nodup_filter_append_iff s.nodup_paths fun q hq => ?_
        rw [← List.map_append] at hq
        have hother : q ∉ moves.map Prod.fst := fun hmem =>
          hmoves.not_mem_targets (List.map_append ▸ List.mem_append_left _ hmem) hq
        simpa using hother
      rw [allSucceeded_append, and_iff_right hall, hsecond, hnodup, List.map_append,
        List.append_assoc]
    · -- Nothing that has moved is moved again.
      have hkept : (moves.map Prod.snd).filter (fun p => !(moves'.map Prod.fst).contains p) =
          moves.map Prod.snd := by
        refine Text.filter_outside_of_disjoint fun q hq hmem => ?_
        exact hmoves.not_mem_targets (List.map_append ▸ List.mem_append_right _ hmem)
          (List.map_append ▸ List.mem_append_left _ hq)
      calc
        s''.paths
            = (s'.paths.filter fun p => !(moves'.map Prod.fst).contains p) ++
                moves'.map Prod.snd := hpaths' (allSucceeded_append.mp hrest).2
        _ = ((s.paths.filter fun p => !(moves.map Prod.fst).contains p).filter
              fun p => !(moves'.map Prod.fst).contains p) ++ moves.map Prod.snd ++
                moves'.map Prod.snd := by
            rw [hpaths, List.filter_append, hkept]
        _ = (s.paths.filter fun p => !((moves ++ moves').map Prod.fst).contains p) ++
              (moves ++ moves').map Prod.snd := by
            rw [Text.filter_outside_append, List.append_assoc, List.map_append, List.map_append]
  · have hnodup : ¬ (s.paths ++ (moves ++ moves').map Prod.snd).Nodup := by
      rw [List.map_append, ← List.append_assoc]
      exact fun hn => hall (h.succeeded.mpr (List.nodup_append.mp hn).1)
    have hsome : ¬ AllSucceeded (ops ++ rest) := fun hn => hall (allSucceeded_append.mp hn).1
    exact ⟨iff_of_false hsome hnodup, fun hn => absurd hn hsome⟩

/-- A single move. -/
theorem moved_of_moveTo (hp : p ∈ s.paths) (hne : p ≠ q) {op : Operation}
    (hop : moveTo kind s (p, q) = (s', .ok op)) : Moved [(p, q)] s s' [op] := by
  by_cases hq : q ∈ s.paths
  · rw [moveTo_of_taken hp hne hq] at hop
    cases hop
    have hnodup : ¬ (s.paths ++ [q]).Nodup := fun hn =>
      (List.nodup_append.mp hn).2.2 q hq q List.mem_cons_self rfl
    have hfailed : ¬ AllSucceeded [{ kind, path := p, fault := some (.pathTaken q) }] := by
      simp [Operation.succeeded]
    exact ⟨iff_of_false hfailed hnodup, fun hn => absurd hn hfailed⟩
  · rcases mem_paths.mp hp with ⟨t, ht, rfl⟩
    rcases moveTo_of_free kind ht hne hq with ⟨s₁, hrun, htokens⟩
    rw [hop] at hrun
    cases hrun
    have hnodup : (s.paths ++ [q]).Nodup := by
      simpa using List.Nodup.concat hq s.nodup_paths
    refine ⟨iff_of_true (by simp [Operation.succeeded, movedOp]) hnodup, fun _ => ?_⟩
    rw [paths_of_movedTokens htokens, Text.filter_ne_eq_outside]
    rfl

/-- Independent moves from existing paths. -/
theorem moves_run (h : TargetRun (moveTo kind) moves s s' ops) (hmoves : Independent moves)
    (hsources : ∀ b ∈ moves, b.1 ∈ s.paths) : Moved moves s s' ops := by
  generalize hstep : moveTo kind = step at h
  induction h with
  | nil s => exact ⟨by simp [s.nodup_paths], by simp⟩
  | @cons b moves s s₁ s' op rest hop _ ih =>
    have hb : b ∈ b :: moves := List.mem_cons_self
    rw [← hstep] at hop
    have hfirst : Moved [b] s s₁ [op] :=
      moved_of_moveTo (hsources b hb) (hmoves.apart b hb b hb) hop
    exact hfirst.append (ih hmoves.tail) hmoves fun c hc =>
      hsources c (List.mem_cons_of_mem _ hc)

end

/-! ## Merges -/

/-- Merging separate groups of existing paths always succeeds and leaves the first of each. -/
theorem merges_run {groups : List (List String)} (h : DraftRun (groups.map Draft.merge) s s' ops)
    (hnodup : groups.flatten.Nodup) (hmem : ∀ p ∈ groups.flatten, p ∈ s.paths)
    (htwo : ∀ group ∈ groups, 2 ≤ group.length) :
    AllSucceeded ops ∧
      s'.paths = s.paths.filter fun p => !(groups.flatMap List.tail).contains p := by
  induction groups generalizing s ops with
  | nil =>
    cases h
    simp
  | cons group groups ih =>
    rcases DraftRun.cons_inv h with ⟨s₁, first, rest, haction, hrest, rfl⟩
    rw [List.flatten_cons, List.nodup_append] at hnodup
    rcases hnodup with ⟨hgroup, hgroups, happart⟩
    have hexist : ∀ p ∈ group, p ∈ s.paths := fun p hp =>
      hmem p (List.mem_append_left _ hp)
    obtain ⟨keep, source, sources, rfl⟩ :
        ∃ keep source sources, group = keep :: source :: sources :=
      match group, htwo group List.mem_cons_self with
      | keep :: source :: sources, _ => ⟨keep, source, sources, rfl⟩
    obtain ⟨s₂, ops₂, hrun, hmerged, hsucceeded⟩ :=
      exists_merged (hexist keep List.mem_cons_self) hgroup
        fun p hp => hexist p (List.mem_cons_of_mem _ hp)
    have hsame : s.runAction false ((Draft.merge (keep :: source :: sources)).toAction "") =
        (s₂, .ok ops₂) := hrun
    rw [haction] at hsame
    cases hsame
    -- The members of the later groups are no sources of this one.
    have hleft : ∀ p ∈ groups.flatten, p ∈ s₁.paths := by
      intro p hp
      refine hmerged.mem_paths_iff.mpr ⟨hmem p (List.mem_append_right _ hp), fun hsource => ?_⟩
      exact happart p (List.mem_cons_of_mem _ hsource) p hp rfl
    obtain ⟨hall, hpaths⟩ := ih hrest hgroups hleft fun g hg => htwo g (List.mem_cons_of_mem _ hg)
    refine ⟨allSucceeded_append.mpr ⟨hsucceeded (List.cons_ne_nil _ _), hall⟩, ?_⟩
    rw [hpaths, hmerged.paths, Text.filter_outside_append]
    rfl

/-! ## Deletions -/

theorem deleteTarget_of_unreferenced (hp : p ∈ s.paths)
    (hfree : ∀ t ∈ s.tokens, t.references p = false) :
    s.deleteTarget false p = (s.erase p, .ok { kind := .delete, path := p }) := by
  have hnone : s.referrers p = [] := by
    simpa [referrers] using hfree
  simp [deleteTarget, contains_iff.mpr hp, hnone]

theorem deleteTarget_of_referenced {t : Token} (hp : p ∈ s.paths) (ht : t ∈ s.tokens)
    (href : t.references p = true) :
    s.deleteTarget false p = s.failed .delete p (.stillReferenced p (s.referrers p)) := by
  have hsome : (s.referrers p).isEmpty = false := by
    have hmem := (path_mem_referrers ht p).mpr href
    cases hreferrers : s.referrers p with
    | nil => simp [hreferrers] at hmem
    | cons _ _ => rfl
  simp [deleteTarget, contains_iff.mpr hp, hsome]

/-- Every token that refers to one of the paths is itself at one that comes earlier. -/
def DeletableInOrder (s : OpenStore) (paths : List String) : Prop :=
  ∀ before p after, paths = before ++ p :: after →
    ∀ t ∈ s.tokens, t.references p = true → t.path ∈ before

/-- Deletions of distinct existing paths all succeed exactly if every token that refers to one of
them is deleted before it. -/
theorem deletions_run {targets : List String}
    (h : TargetRun (deleteTarget false) targets s s' ops) (hnodup : targets.Nodup)
    (hmem : ∀ p ∈ targets, p ∈ s.paths) : AllSucceeded ops ↔ s.DeletableInOrder targets := by
  unfold DeletableInOrder
  generalize hstep : (deleteTarget false : TargetStep String) = step at h
  induction h with
  | nil s => simp
  | @cons p targets s s₁ s' op rest hop _ ih =>
    rw [← hstep] at hop
    have hp := hmem p List.mem_cons_self
    by_cases hfree : ∀ t ∈ s.tokens, t.references p = false
    · rw [deleteTarget_of_unreferenced hp hfree] at hop
      cases hop
      rcases List.nodup_cons.mp hnodup with ⟨hfirst, hnodup'⟩
      have hmem' : ∀ q ∈ targets, q ∈ (s.erase p).paths := by
        intro q hq
        rw [paths_erase, List.mem_filter]
        have hne : q ≠ p := fun heq => hfirst (heq ▸ hq)
        exact ⟨hmem q (List.mem_cons_of_mem _ hq), by simpa using hne⟩
      rw [allSucceeded_cons, ih hnodup' hmem']
      simp only [Operation.succeeded, Option.isNone_none, true_and]
      constructor
      · intro hlater before q after hsplit t ht href
        cases before with
        | nil =>
          cases hsplit
          simp [hfree t ht] at href
        | cons r before =>
          cases hsplit
          by_cases htp : t.path = p
          · simp [htp]
          · refine List.mem_cons_of_mem _ (hlater before q after rfl t ?_ href)
            rw [tokens_erase, List.mem_filter]
            exact ⟨ht, by simpa using htp⟩
      · intro hall before q after hsplit t ht href
        rw [tokens_erase, List.mem_filter] at ht
        have htp : t.path ≠ p := by simpa using ht.2
        have hin := hall (p :: before) q after (by rw [hsplit, List.cons_append]) t ht.1 href
        exact (List.mem_cons.mp hin).resolve_left htp
    · have hsome : ∃ t ∈ s.tokens, t.references p = true := by
        simpa using hfree
      rcases hsome with ⟨t, ht, href⟩
      rw [deleteTarget_of_referenced hp ht href] at hop
      cases hop
      refine iff_of_false (by simp [Operation.succeeded]) fun hall => ?_
      exact absurd (hall [] p targets rfl t ht href) List.not_mem_nil

/-! ## Descriptions -/

/-- Describing an existing token succeeds and changes at most its description. -/
theorem describeTarget_of_mem (hp : p ∈ s.paths) :
    ∃ s' op f, s.describeTarget false p = (s', .ok op) ∧ op.succeeded = true ∧
      op.kind = .updateReferences ∧ s'.tokens = s.tokens.map f ∧
      ∀ t, (f t).path = t.path ∧ (f t).declared = t.declared := by
  rcases exists_get?_of_mem_paths hp with ⟨t, ht⟩
  unfold describeTarget
  rw [ht]
  dsimp only
  split
  · exact ⟨s, _, id, rfl, rfl, rfl, by simp, fun _ => ⟨rfl, rfl⟩⟩
  · split
    · exact ⟨s, _, id, rfl, rfl, rfl, by simp, fun _ => ⟨rfl, rfl⟩⟩
    · refine ⟨_, _, _, rfl, rfl, rfl, tokens_edit _ _ _, fun u => ⟨editToken_path _ _ u, ?_⟩⟩
      unfold editToken
      split <;> rfl

/-- Describing existing tokens always succeeds and changes descriptions only. -/
theorem descriptions_run {targets : List String}
    (h : TargetRun (describeTarget false) targets s s' ops) (hmem : ∀ p ∈ targets, p ∈ s.paths) :
    AllSucceeded ops ∧ (∀ op ∈ ops, op.kind = .updateReferences) ∧
      ∃ f, s'.tokens = s.tokens.map f ∧
        ∀ t, (f t).path = t.path ∧ (f t).declared = t.declared := by
  generalize hstep : (describeTarget false : TargetStep String) = step at h
  induction h with
  | nil s => exact ⟨allSucceeded_nil, by simp, id, by simp, fun _ => ⟨rfl, rfl⟩⟩
  | @cons p targets s s₁ s' op rest hop _ ih =>
    rcases describeTarget_of_mem (hmem p List.mem_cons_self) with
      ⟨s₂, op₂, f, hrun, hsucceeded, hkind, htokens, hf⟩
    rw [hstep, hop] at hrun
    cases hrun
    have hpaths : s₁.paths = s.paths := by
      rw [paths, htokens, List.map_map]
      exact List.map_congr_left fun t _ => (hf t).1
    obtain ⟨hall, hkinds, g, htokens', hg⟩ := ih fun q hq => by
      rw [hpaths]
      exact hmem q (List.mem_cons_of_mem _ hq)
    refine ⟨allSucceeded_cons.mpr ⟨hsucceeded, hall⟩, List.forall_mem_cons.mpr ⟨hkind, hkinds⟩,
      g ∘ f, by rw [htokens', htokens, List.map_map], fun t => ?_⟩
    exact ⟨(hg (f t)).1.trans (hf t).1, (hg (f t)).2.trans (hf t).2⟩

/-! ## Drafts as runs over targets -/

theorem targetRun_of_placeholders {targets : List String} {purpose : String}
    (h : s.runAction false ((Draft.placeholders targets purpose).toAction "") = (s', .ok ops)) :
    TargetRun (createTarget false "" (Draft.placeholders targets purpose).description) targets
      s s' ops :=
  forTargets_eq_ok_iff.mp h

/-- The moves that some suggestions ask for. -/
def suggestedMoves {α : Type} (suggestions : List (Suggestion α)) : List (String × String) :=
  suggestions.map fun c => (c.source, c.target)

/-- Moves from different paths of a store to paths that are not in it are independent. -/
theorem independent_suggestedMoves {α : Type} {suggestions : List (Suggestion α)}
    (hnodup : (suggestions.map Suggestion.source).Nodup)
    (hmem : ∀ c ∈ suggestions, c.source ∈ s.paths)
    (hfree : ∀ c ∈ suggestions, c.target ∉ s.paths) :
    Independent (suggestedMoves suggestions) where
  sources := by simpa [suggestedMoves, Function.comp_def] using hnodup
  apart b hb b' hb' := by
    rcases List.mem_map.mp hb with ⟨c, hc, rfl⟩
    rcases List.mem_map.mp hb' with ⟨c', hc', rfl⟩
    intro heq
    have hsame : c.source = c'.target := heq
    exact hfree c' hc' (hsame ▸ hmem c hc)

theorem targetRun_of_renames {α : Type} {suggestions : List (Suggestion α)} {what : String}
    (h : s.runAction false ((Draft.renames suggestions what).toAction "") = (s', .ok ops)) :
    TargetRun (moveTo .rename) (suggestedMoves suggestions) s s' ops := by
  -- The new paths are listed beside the old ones, at the same positions.
  have htargets : renameTargets ((Draft.renames suggestions what).toAction "") =
      (suggestedMoves suggestions).map fun b => (b.1, some b.2) := by
    refine List.ext_getElem
      (by simp [renameTargets, Draft.renames, Draft.toAction, suggestedMoves]) ?_
    intro i hi hi'
    have hlength : i < suggestions.length := by simpa [suggestedMoves] using hi'
    simp [renameTargets, Draft.renames, Draft.toAction, suggestedMoves, hlength]
  have hrun := forTargets_eq_ok_iff.mp h
  rw [htargets] at hrun
  exact hrun.of_map fun b _ s => renameTarget_eq_moveTo s b.1 b.2

/-- Restructuring compliant paths moves them to their canonical paths. -/
theorem targetRun_of_restructure {moves : List (String × String)}
    (hmoves : ∀ b ∈ moves, ∃ n, Naming.strict? b.1 = some n ∧ n.path = b.2)
    (h : s.runAction false ((Draft.restructure (moves.map Prod.fst)).toAction "") =
      (s', .ok ops)) : TargetRun (moveTo .restructure) moves s s' ops := by
  have hrun : TargetRun (restructureTarget false) (moves.map Prod.fst) s s' ops :=
    forTargets_eq_ok_iff.mp h
  refine hrun.of_map fun b hb s => ?_
  rcases hmoves b hb with ⟨n, hn, hpath⟩
  rw [restructureTarget_eq_moveTo hn, hpath]

theorem targetRun_of_deletion {targets : List String}
    (h : s.runAction false ((Draft.deletion targets).toAction "") = (s', .ok ops)) :
    TargetRun (deleteTarget false) targets s s' ops :=
  forTargets_eq_ok_iff.mp h

/-- The description pass works on the compliant tokens of the store as it is. -/
theorem targetRun_of_documentation {checks : List Check}
    (h : s.runAction false ((Draft.documentation checks).toAction "") = (s', .ok ops)) :
    TargetRun (describeTarget false) (s.paths.filter fun p => (Naming.strict? p).isSome)
      s s' ops :=
  forTargets_eq_ok_iff.mp h

end Store
end DesignTokens
