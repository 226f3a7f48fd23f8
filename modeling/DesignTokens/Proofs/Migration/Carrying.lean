import DesignTokens.Proofs.Migration.Paths

/-!
# Tokens carried through a run

A run that creates, moves or describes tokens loses none, also where some of its steps fail: every
token is found again at a place of its own, with the kind that it was declared with.  Only a
creation that succeeds adds a token.
-/

namespace DesignTokens

/-- How many creations of a run succeeded. -/
def Operation.created (ops : List Operation) : Nat :=
  (ops.filter fun op => op.kind = .create && op.succeeded).length

namespace Operation

theorem created_append (ops rest : List Operation) :
    created (ops ++ rest) = created ops + created rest := by
  simp [created, List.filter_append]

theorem created_cons (op : Operation) (rest : List Operation) :
    created (op :: rest) = created [op] + created rest := created_append [op] rest

theorem created_eq_zero {ops : List Operation} (h : ∀ op ∈ ops, op.kind ≠ .create) :
    created ops = 0 := by
  have hnone : (ops.filter fun op => op.kind = .create && op.succeeded) = [] := by
    refine List.filter_eq_nil_iff.mpr fun op hop => ?_
    simp [h op hop]
  rw [created, hnone, List.length_nil]

end Operation

namespace Store

open Operation

variable {s s' s'' : OpenStore} {ops rest : List Operation} {f g : String → String}
  {p q : String}

/-- Every token of a store is found in another at the place of its path, with the same declared
kind, and no two of them at one place. -/
structure Carried (place : String → String) (s s' : OpenStore) : Prop where
  injOn : ∀ x ∈ s.paths, ∀ y ∈ s.paths, place x = place y → x = y
  found : ∀ t ∈ s.tokens, ∃ t' ∈ s'.tokens, t'.path = place t.path ∧ t'.declared = t.declared

namespace Carried

theorem refl (s : OpenStore) : Carried id s s where
  injOn _ _ _ _ h := h
  found t ht := ⟨t, ht, rfl, rfl⟩

theorem place_mem (h : Carried f s s') (hp : p ∈ s.paths) : f p ∈ s'.paths := by
  rcases mem_paths.mp hp with ⟨t, ht, rfl⟩
  rcases h.found t ht with ⟨t', ht', hpath, _⟩
  exact hpath ▸ path_mem_paths ht'

theorem trans (h : Carried f s s') (h' : Carried g s' s'') : Carried (g ∘ f) s s'' where
  injOn x hx y hy heq :=
    h.injOn x hx y hy (h'.injOn _ (h.place_mem hx) _ (h.place_mem hy) heq)
  found t ht := by
    rcases h.found t ht with ⟨t', ht', hpath, hdeclared⟩
    rcases h'.found t' ht' with ⟨t'', ht'', hpath', hdeclared'⟩
    exact ⟨t'', ht'', hpath'.trans (congrArg g hpath), hdeclared'.trans hdeclared⟩

/-- Changes that leave paths and declared kinds alone carry every token in place. -/
theorem of_map {change : Token → Token} (h : s'.tokens = s.tokens.map change)
    (hchange : ∀ t, (change t).path = t.path ∧ (change t).declared = t.declared) :
    Carried id s s' where
  injOn _ _ _ _ h := h
  found t ht := ⟨change t, h ▸ List.mem_map_of_mem ht, hchange t⟩

theorem of_append {more : List Token} (h : s'.tokens = s.tokens ++ more) : Carried id s s' where
  injOn _ _ _ _ h := h
  found t ht := ⟨t, h ▸ List.mem_append_left _ ht, rfl, rfl⟩

end Carried

/-! ## Creations -/

/-- Creations keep every token in place, and each of their paths is taken afterwards. -/
theorem creations_carried {value description : String} {targets : List String}
    (h : TargetRun (createTarget false value description) targets s s' ops) :
    Carried id s s' ∧ s'.size = s.size + created ops ∧ ∀ p ∈ targets, p ∈ s'.paths := by
  generalize hstep : createTarget false value description = step at h
  induction h with
  | nil s => exact ⟨.refl s, rfl, by simp⟩
  | @cons p targets s s₁ s' op rest hop _ ih =>
    rw [← hstep] at hop
    rcases ih with ⟨hcarried, hsize, htargets⟩
    -- Either the path was taken, or its token was created just now.
    have hone : Carried id s s₁ ∧ s₁.size = s.size + created [op] ∧ p ∈ s₁.paths := by
      by_cases hp : p ∈ s.paths
      · rw [createTarget_of_mem hp] at hop
        cases hop
        exact ⟨.refl s, rfl, hp⟩
      · rcases createTarget_of_free value description hp with ⟨s₂, t, hrun, rfl, htokens⟩
        rw [hop] at hrun
        cases hrun
        refine ⟨.of_append htokens, by simp [size, htokens, created, Operation.succeeded], ?_⟩
        exact path_mem_paths (by simp [htokens])
    rcases hone with ⟨hfirst, hfirstSize, hfirstMem⟩
    refine ⟨hfirst.trans hcarried, ?_, List.forall_mem_cons.mpr ⟨?_, htargets⟩⟩
    · rw [hsize, hfirstSize, created_cons op rest, Nat.add_assoc]
    · exact hcarried.place_mem hfirstMem

/-! ## Moves -/

section

variable {kind : ActionKind} {t : Token} {moves : List (String × String)}

theorem size_of_movedTokens (ht : t ∈ s.tokens) (h : s'.tokens = s.movedTokens t q) :
    s'.size = s.size := by
  have hmem := path_mem_paths ht
  have hpos : 0 < s.paths.length := List.length_pos_of_mem hmem
  rw [size_eq_length_paths, size_eq_length_paths, paths_of_movedTokens h,
    ← s.nodup_paths.erase_eq_filter, List.length_append, List.length_erase_of_mem hmem]
  simp only [List.length_singleton]
  omega

/-- A move to a free path puts one token there and leaves the others where they are. -/
theorem carried_of_movedTokens (ht : t ∈ s.tokens) (hq : q ∉ s.paths)
    (h : s'.tokens = s.movedTokens t q) :
    Carried (fun x => if x = t.path then q else x) s s' where
  injOn x hx y hy heq := by
    by_cases hxt : x = t.path
    · by_cases hyt : y = t.path
      · rw [hxt, hyt]
      · simp only [hxt, hyt, if_true, if_false] at heq
        exact absurd (heq ▸ hy) hq
    · by_cases hyt : y = t.path
      · simp only [hxt, hyt, if_true, if_false] at heq
        exact absurd (heq ▸ hx) hq
      · simpa [hxt, hyt] using heq
  found u hu := by
    by_cases hut : u.path = t.path
    · rw [eq_of_path_eq hu ht hut, if_pos rfl]
      exact ⟨{ t with path := q }, h ▸ mem_movedTokens.mpr (.inr rfl), rfl, rfl⟩
    · rw [if_neg hut]
      refine ⟨u.follow t.path q, h ▸ mem_movedTokens.mpr (.inl ⟨u, hu, hut, rfl⟩), ?_, ?_⟩
      · exact u.follow_path t.path q
      · exact u.follow_declared t.path q

/-- A single move carries its token to the target or fails, and carries the others in place. -/
theorem carried_of_moveTo (hkind : kind ≠ .create) (hne : p ≠ q) {op : Operation}
    (hop : moveTo kind s (p, q) = (s', .ok op)) :
    s'.size = s.size + created [op] ∧ ∃ place, Carried place s s' ∧
      ∀ x ∈ s.paths, place x = x ∨ x = p ∧ place x = q := by
  have hidle : ∀ fault, moveTo kind s (p, q) = s.failed kind p fault →
      s'.size = s.size + created [op] ∧ ∃ place, Carried place s s' ∧
        ∀ x ∈ s.paths, place x = x ∨ x = p ∧ place x = q := by
    intro fault hfailed
    rw [hop] at hfailed
    cases hfailed
    exact ⟨by simp [created, Operation.succeeded], id, .refl s, fun _ _ => .inl rfl⟩
  by_cases hp : p ∈ s.paths
  · by_cases hq : q ∈ s.paths
    · exact hidle _ (moveTo_of_taken hp hne hq)
    · rcases mem_paths.mp hp with ⟨t, ht, rfl⟩
      rcases moveTo_of_free kind ht hne hq with ⟨s₁, hrun, htokens⟩
      rw [hop] at hrun
      cases hrun
      refine ⟨?_, _, carried_of_movedTokens ht hq htokens, fun x _ => ?_⟩
      · rw [size_of_movedTokens ht htokens]
        simp [created, movedOp, hkind]
      · by_cases hx : x = t.path
        · exact .inr ⟨hx, if_pos hx⟩
        · exact .inl (if_neg hx)
  · exact hidle _ (moveTo_of_missing hp)

/-- Independent moves carry every token, each to where one of them takes it or not at all. -/
theorem moves_carried (hkind : kind ≠ .create) (h : TargetRun (moveTo kind) moves s s' ops)
    (hmoves : Independent moves) :
    s'.size = s.size + created ops ∧ ∃ place, Carried place s s' ∧
      ∀ p ∈ s.paths, place p = p ∨ (p, place p) ∈ moves := by
  generalize hstep : moveTo kind = step at h
  induction h with
  | nil s => exact ⟨rfl, id, .refl s, fun _ _ => .inl rfl⟩
  | @cons b moves s s₁ s' op rest hop _ ih =>
    rcases b with ⟨p, q⟩
    rcases ih hmoves.tail with ⟨hsize, place, hcarried, hplace⟩
    rw [← hstep] at hop
    have hne : p ≠ q := hmoves.apart (p, q) List.mem_cons_self (p, q) List.mem_cons_self
    rcases carried_of_moveTo hkind hne hop with ⟨hfirstSize, first, hfirst, hfirstPlace⟩
    refine ⟨?_, place ∘ first, hfirst.trans hcarried, fun x hx => ?_⟩
    · rw [hsize, hfirstSize, created_cons op rest, Nat.add_assoc]
    · rw [Function.comp_apply]
      rcases hfirstPlace x hx with hsame | ⟨rfl, htaken⟩
      · have hmem := hplace (first x) (hfirst.place_mem hx)
        rw [hsame] at hmem ⊢
        exact hmem.imp_right (List.mem_cons_of_mem _)
      · -- The moved token has arrived at a target, and no later move starts from one.
        have hstays : place q = q := by
          rcases hplace q (htaken ▸ hfirst.place_mem hx) with hstays | hmoved
          · exact hstays
          · exact absurd rfl (hmoves.apart _ (List.mem_cons_of_mem _ hmoved) _ List.mem_cons_self)
        rw [htaken, hstays]
        exact .inr List.mem_cons_self

/-- Independent moves leave no target free whose source was there. -/
theorem moves_reach (hkind : kind ≠ .create) (h : TargetRun (moveTo kind) moves s s' ops)
    (hmoves : Independent moves) : ∀ b ∈ moves, b.1 ∈ s.paths → b.2 ∈ s'.paths := by
  generalize hstep : moveTo kind = step at h
  induction h with
  | nil s => exact fun b hb => absurd hb List.not_mem_nil
  | @cons b moves s s₁ s' op rest hop hrest ih =>
    rcases b with ⟨p, q⟩
    rw [← hstep] at hop hrest
    have hne : p ≠ q := hmoves.apart (p, q) List.mem_cons_self (p, q) List.mem_cons_self
    intro b' hb' hsource
    rcases List.mem_cons.mp hb' with rfl | hlater
    · -- The target is taken before the move or by it, and no later move starts from it.
      have hq : q ∈ s₁.paths := by
        by_cases hq : q ∈ s.paths
        · rw [moveTo_of_taken hsource hne hq] at hop
          cases hop
          exact hq
        · rcases mem_paths.mp hsource with ⟨t, ht, rfl⟩
          rcases moveTo_of_free kind ht hne hq with ⟨s₂, hrun, htokens⟩
          rw [hop] at hrun
          cases hrun
          rw [paths_of_movedTokens htokens]
          exact List.mem_append_right _ List.mem_cons_self
      rcases moves_carried hkind hrest hmoves.tail with ⟨_, place, hcarried, hplace⟩
      have hstays : place q = q := (hplace q hq).resolve_right fun hmoved =>
        hmoves.apart _ (List.mem_cons_of_mem _ hmoved) _ List.mem_cons_self rfl
      exact hstays ▸ hcarried.place_mem hq
    · refine ih hmoves.tail b' hlater ?_
      rcases carried_of_moveTo hkind hne hop with ⟨_, place, hcarried, hplace⟩
      have hmem : b'.1 ∈ moves.map Prod.fst := List.mem_map_of_mem hlater
      have hother : b'.1 ≠ p := fun heq => (List.nodup_cons.mp hmoves.sources).1 (heq ▸ hmem)
      have hstays : place b'.1 = b'.1 :=
        (hplace b'.1 hsource).resolve_right fun hmoved => hother hmoved.1
      exact hstays ▸ hcarried.place_mem hsource

end

/-! ## Descriptions -/

theorem descriptions_carried {targets : List String}
    (h : TargetRun (describeTarget false) targets s s' ops) (hmem : ∀ p ∈ targets, p ∈ s.paths) :
    Carried id s s' ∧ s'.size = s.size + created ops := by
  rcases descriptions_run h hmem with ⟨_, hkinds, change, htokens, hchange⟩
  refine ⟨.of_map htokens hchange, ?_⟩
  have hnone : created ops = 0 := created_eq_zero fun op hop => by simp [hkinds op hop]
  simp [size, htokens, hnone]

end Store
end DesignTokens
