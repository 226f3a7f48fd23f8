import DesignTokens.Proofs.Store.Known

/-!
# What a resolution settles

The rounds over the waiting tokens keep `Store.Progress`: the settled values are right, and what is
settled and what waits make up all that waited at first.  They stop when no waiting token finds all
that it needs, and then every known path is settled.  So the order in which the tokens come decides
about the order of the results only.
-/

namespace DesignTokens

/-! ## Rounds -/

theorem Settled.value?_add (k : Settled) (path : String) (v : Value) (p : String) :
    (k.add path v).value? p = (k.value? p).or (if p = path then some v else none) := by
  by_cases h : p = path
  · simp [Settled.add, Settled.value?, List.lookup_append, h]
  · have hne : (p == path) = false := by simpa using h
    simp [Settled.add, Settled.value?, List.lookup_append, List.lookup_cons, h, hne]

theorem Settled.isSome_value?_add {k : Settled} {path p : String} {v : Value} :
    ((k.add path v).value? p).isSome = true ↔ (k.value? p).isSome = true ∨ p = path := by
  rw [k.value?_add path v p]
  by_cases h : p = path <;> simp [h]

namespace Store

variable {locked : String → Bool} {s : Store locked} {k : Settled} {ws before : List Waiting}
  {w : Waiting} {t : Token} {p : String} {v : Value}

/-- A token as it waits for those it refers to. -/
def waitingFor (s : Store locked) (t : Token) : Waiting := ⟨t.path, t.raw, t.targets s.contains⟩

theorem waiting_eq (s : Store locked) :
    s.waiting = (s.tokens.filter fun t => t.targets s.contains ≠ []).map s.waitingFor := by
  unfold waiting
  induction s.tokens with
  | nil => rfl
  | cons t ts ih =>
    cases h : t.targets s.contains <;> simp [h, ih, waitingFor]

theorem mem_waiting : w ∈ s.waiting ↔
    ∃ t ∈ s.tokens, t.targets s.contains ≠ [] ∧ s.waitingFor t = w := by
  simp [waiting_eq, and_assoc]

/-- What a whole reference waits for is the value of its target. -/
theorem value?_of_whole {target : String} (h : t.dependence s.contains = .whole target) :
    (s.waitingFor t).value? k = k.value? target := by
  unfold Token.dependence at h
  split at h
  · cases h
  · next htargets =>
    split at h
    · next hwhole =>
      cases h
      simp [waitingFor, Waiting.value?, htargets, hwhole]
    · cases h
  · cases h

theorem value?_of_filled (h : t.dependence s.contains = .filled) :
    (s.waitingFor t).value? k =
      (Reference.substitute? t.raw fun p => (k.value? p).map Value.render).map Value.infer := by
  unfold Token.dependence at h
  split at h
  · cases h
  · next htargets =>
    split at h
    · cases h
    · next hwhole => simp [waitingFor, Waiting.value?, htargets, hwhole]
  · next hone =>
    unfold waitingFor Waiting.value?
    split
    · next target htargets => exact absurd htargets (hone target)
    · rfl

/-- What holds between two tokens of a round: all settled values are right, and what is settled
and what waits make up what waited at first. -/
structure Progress (s : Store locked) (k : Settled) (ws : List Waiting) : Prop where
  sound : ∀ p v, k.value? p = some v → s.ComesTo p v
  independent : ∀ t ∈ s.tokens, t.targets s.contains = [] → (k.value? t.path).isSome = true
  done : ∀ p ∈ k.order, (k.value? p).isSome = true
  split : (k.order ++ ws.map Waiting.path).Perm (s.waiting.map Waiting.path)
  subset : ∀ w ∈ ws, w ∈ s.waiting

/-- A waiting token that finds all it needs gets the value that its path comes to. -/
theorem comesTo_of_value? (hsound : ∀ p v, k.value? p = some v → s.ComesTo p v)
    (hw : w ∈ s.waiting) (hv : w.value? k = some v) : s.ComesTo w.path v := by
  rcases mem_waiting.mp hw with ⟨t, ht, htargets, rfl⟩
  cases hform : t.dependence s.contains with
  | independent => exact absurd (Token.dependence_eq_independent_iff.mp hform) htargets
  | whole target =>
    rw [value?_of_whole hform] at hv
    exact .whole ht hform (hsound target v hv)
  | filled =>
    rw [value?_of_filled hform] at hv
    rcases Option.map_eq_some_iff.mp hv with ⟨text, htext, rfl⟩
    have hknown : ∀ p ∈ Reference.bodies t.raw, (k.value? p).isSome = true := by
      intro p hmem
      have hall := Reference.isSome_substitute?_iff.mp (Option.isSome_iff_exists.mpr ⟨text, htext⟩)
      simpa using hall p hmem
    -- Off the bodies any value will do.
    have hbodies : ∀ p ∈ Reference.bodies t.raw, s.ComesTo p ((k.value? p).getD t.value) := by
      intro p hmem
      rcases Option.isSome_iff_exists.mp (hknown p hmem) with ⟨u, hu⟩
      rw [hu]
      exact hsound p u hu
    have hfilled : Reference.substitute? t.raw (fun p => some ((k.value? p).getD t.value).render) =
        some text := by
      rw [← htext]
      refine Reference.substitute?_congr fun p hmem => ?_
      rcases Option.isSome_iff_exists.mp (hknown p hmem) with ⟨u, hu⟩
      simp [hu]
    exact .filled ht hform hbodies hfilled

namespace Progress

theorem start (s : Store locked) : s.Progress ⟨s.literals, []⟩ s.waiting where
  sound p v h := by
    rcases List.lookup_eq_some_iff.mp h with ⟨l₁, l₂, hvalues, _⟩
    have hmem : (p, v) ∈ s.literals := by
      rw [show s.literals = l₁ ++ (p, v) :: l₂ from hvalues]
      exact List.mem_append_right _ List.mem_cons_self
    rcases List.mem_filterMap.mp hmem with ⟨t, ht, hpair⟩
    split at hpair
    · next hnone =>
      cases hpair
      exact .independent ht (Token.dependence_eq_independent_iff.mpr (by simpa using hnone))
    · cases hpair
  independent t ht htargets := by
    have hmem : (t.path, t.value) ∈ s.literals :=
      List.mem_filterMap.mpr ⟨t, ht, by simp [htargets]⟩
    rw [Settled.value?, List.lookup_isSome_iff]
    exact ⟨_, hmem, by simp⟩
  done p hp := absurd hp List.not_mem_nil
  split := List.Perm.refl _
  subset _ hw := hw

/-- Settling one more waiting token. -/
theorem add (h : s.Progress k (before ++ w :: ws)) (hv : w.value? k = some v) :
    s.Progress (k.add w.path v) (before ++ ws) where
  sound p u hu := by
    rw [Settled.value?_add] at hu
    rcases Option.or_eq_some_iff.mp hu with hold | ⟨_, hnew⟩
    · exact h.sound p u hold
    · split at hnew
      · next hp =>
        cases hnew
        rw [hp]
        exact comesTo_of_value? h.sound (h.subset w (by simp)) hv
      · cases hnew
  independent t ht htargets := Settled.isSome_value?_add.mpr (.inl (h.independent t ht htargets))
  done p hp := by
    rcases List.mem_append.mp hp with hold | hnew
    · exact Settled.isSome_value?_add.mpr (.inl (h.done p hold))
    · exact Settled.isSome_value?_add.mpr (.inr (List.mem_singleton.mp hnew))
  split := by
    refine List.Perm.trans ?_ h.split
    simp only [Settled.add, List.map_append, List.map_cons, List.append_assoc]
    have hmiddle : (before.map Waiting.path ++ w.path :: ws.map Waiting.path).Perm
        (w.path :: (before.map Waiting.path ++ ws.map Waiting.path)) := List.perm_middle
    exact hmiddle.symm.append_left k.order
  subset u hu := by
    refine h.subset u ?_
    rcases List.mem_append.mp hu with hbefore | hafter
    · exact List.mem_append_left _ hbefore
    · exact List.mem_append_right _ (List.mem_cons_of_mem _ hafter)

/-- A round over the rest of the waiting tokens; those before it go on waiting. -/
theorem round (h : s.Progress k (before ++ ws)) :
    s.Progress (Waiting.round ws k).1 (before ++ (Waiting.round ws k).2) := by
  induction ws generalizing k before with
  | nil => exact h
  | cons w ws ih =>
    unfold Waiting.round
    split
    · next v hv => exact ih (h.add hv)
    · have hnext : s.Progress (Waiting.round ws k).1
          ((before ++ [w]) ++ (Waiting.round ws k).2) := ih (by simpa using h)
      simpa using hnext

end Progress

/-- A round that settles nothing has found no token that can be settled. -/
theorem round_stuck (h : ¬ (Waiting.round ws k).2.length < ws.length) :
    (Waiting.round ws k).1 = k ∧ ∀ w ∈ (Waiting.round ws k).2, w.value? k = none := by
  induction ws with
  | nil => simp [Waiting.round]
  | cons w ws ih =>
    unfold Waiting.round at h ⊢
    split at h
    · next v hv =>
      have hle := Waiting.length_round_le ws (k.add w.path v)
      simp only [List.length_cons] at h
      omega
    · next hnone =>
      have hrest := ih (by simpa using h)
      simpa [hnone] using hrest

/-- The rounds end with `Progress`, and nothing that still waits can be settled. -/
theorem Progress.settle (h : s.Progress k ws) :
    s.Progress (Waiting.settle ws k).1 (Waiting.settle ws k).2 ∧
      ∀ w ∈ (Waiting.settle ws k).2, w.value? (Waiting.settle ws k).1 = none := by
  induction ws, k using Waiting.settle.induct with
  | case1 ws k next hlt ih =>
    have hround : s.Progress next.1 ([] ++ next.2) := Progress.round h
    rw [Waiting.settle, if_pos hlt]
    exact ih hround
  | case2 ws k next hge =>
    have hround : s.Progress next.1 ([] ++ next.2) := Progress.round h
    rcases round_stuck hge with ⟨hsame, hnone⟩
    rw [Waiting.settle, if_neg hge]
    refine ⟨hround, fun w hw => ?_⟩
    rw [hsame]
    exact hnone w hw

/-! ## What a resolution settles -/

theorem progress_settled (s : Store locked) : s.Progress s.settled.1 s.settled.2 :=
  (Progress.start s).settle.1

/-- The settled paths and the ones that wait for ever are those that waited at first. -/
theorem perm_resolve (s : Store locked) :
    (s.resolve.2.resolved ++ s.resolve.2.unresolved).Perm
      ((s.tokens.filter fun t => t.targets s.contains ≠ []).map Token.path) := by
  have hwaiting : s.waiting.map Waiting.path =
      (s.tokens.filter fun t => t.targets s.contains ≠ []).map Token.path := by
    rw [waiting_eq, List.map_map]
    rfl
  rw [← hwaiting]
  exact s.progress_settled.split

theorem nodup_resolve (s : Store locked) :
    (s.resolve.2.resolved ++ s.resolve.2.unresolved).Nodup :=
  s.perm_resolve.nodup_iff.mpr ((List.filter_sublist.map Token.path).nodup s.distinct)

/-- A token waits for ever only if it has references, and it finds not all that it needs. -/
theorem stuck_of_mem_unresolved (ht : t ∈ s.tokens) (h : t.path ∈ s.resolve.2.unresolved) :
    t.targets s.contains ≠ [] ∧ (s.waitingFor t).value? s.settled.1 = none := by
  rcases List.mem_map.mp h with ⟨w, hw, hpath⟩
  rcases mem_waiting.mp (s.progress_settled.subset w hw) with ⟨u, hu, htargets, rfl⟩
  cases eq_of_path_eq hu ht hpath
  exact ⟨htargets, (Progress.start s).settle.2 _ hw⟩

/-- A token with references that has not been settled waits for ever. -/
theorem mem_resolved_or_mem_unresolved (ht : t ∈ s.tokens) (h : t.targets s.contains ≠ []) :
    t.path ∈ s.resolve.2.resolved ∨ t.path ∈ s.resolve.2.unresolved := by
  refine List.mem_append.mp (s.perm_resolve.mem_iff.mpr (List.mem_map_of_mem ?_))
  exact List.mem_filter.mpr ⟨ht, by simpa using h⟩

/-- A token that finds all it needs is settled and does not wait. -/
theorem settled_of_value? (ht : t ∈ s.tokens) (htargets : t.targets s.contains ≠ [])
    (hvalue : ((s.waitingFor t).value? s.settled.1).isSome = true) :
    (s.settled.1.value? t.path).isSome = true ∧ t.path ∉ s.resolve.2.unresolved := by
  have hnot : t.path ∉ s.resolve.2.unresolved := by
    intro hstuck
    simp [(stuck_of_mem_unresolved ht hstuck).2] at hvalue
  have hresolved := (mem_resolved_or_mem_unresolved ht htargets).resolve_right hnot
  exact ⟨s.progress_settled.done _ hresolved, hnot⟩

/-- Every known path is settled and does not wait.  The induction is on the reason why the path is
known: what a token needs is settled, so a waiting token would have been found. -/
theorem Known.settled (h : s.Known p) :
    (s.settled.1.value? p).isSome = true ∧ p ∉ s.resolve.2.unresolved := by
  induction h with
  | @independent t ht hform =>
    have hnone := Token.dependence_eq_independent_iff.mp hform
    refine ⟨s.progress_settled.independent t ht hnone, fun hstuck => ?_⟩
    exact (stuck_of_mem_unresolved ht hstuck).1 hnone
  | @whole t target ht hform _ ih =>
    have htargets : t.targets s.contains ≠ [] :=
      mt Token.dependence_eq_independent_iff.mpr (by simp [hform])
    refine settled_of_value? ht htargets ?_
    rw [value?_of_whole hform]
    exact ih.1
  | @filled t ht hform _ ih =>
    have htargets : t.targets s.contains ≠ [] :=
      mt Token.dependence_eq_independent_iff.mpr (by simp [hform])
    refine settled_of_value? ht htargets ?_
    rw [value?_of_filled hform, Option.isSome_map, Reference.isSome_substitute?_iff]
    intro q hq
    rw [Option.isSome_map]
    exact (ih q hq).1

theorem known_of_mem_resolved (h : p ∈ s.resolve.2.resolved) : s.Known p := by
  rcases Option.isSome_iff_exists.mp (s.progress_settled.done p h) with ⟨v, hv⟩
  exact (s.progress_settled.sound p v hv).known

theorem mem_resolved_iff (ht : t ∈ s.tokens) : t.path ∈ s.resolve.2.resolved ↔
    t.targets s.contains ≠ [] ∧ s.Known t.path := by
  constructor
  · intro h
    have hmem := s.perm_resolve.mem_iff.mp (List.mem_append_left _ h)
    rcases List.mem_map.mp hmem with ⟨u, hu, hpath⟩
    rcases List.mem_filter.mp hu with ⟨hu, htargets⟩
    cases eq_of_path_eq hu ht hpath
    exact ⟨by simpa using htargets, known_of_mem_resolved h⟩
  · intro h
    exact (mem_resolved_or_mem_unresolved ht h.1).resolve_right h.2.settled.2

theorem mem_unresolved_iff (ht : t ∈ s.tokens) : t.path ∈ s.resolve.2.unresolved ↔
    t.targets s.contains ≠ [] ∧ ¬ s.Known t.path := by
  constructor
  · intro h
    exact ⟨(stuck_of_mem_unresolved ht h).1, fun hknown => hknown.settled.2 h⟩
  · intro h
    refine (mem_resolved_or_mem_unresolved ht h.1).resolve_left fun hresolved => ?_
    exact h.2 (known_of_mem_resolved hresolved)

/-! ## The store after a resolution -/

/-- The token with the settled value of its path, if its path is one of some. -/
def settleToken (k : Settled) (ps : List String) (t : Token) : Token :=
  if t.path ∈ ps then { t with resolved := (k.value? t.path).or t.resolved } else t

@[simp]
theorem settleToken_path (k : Settled) (ps : List String) (t : Token) :
    (settleToken k ps t).path = t.path := by
  unfold settleToken
  split <;> rfl

@[simp]
theorem settleToken_value (k : Settled) (ps : List String) (t : Token) :
    (settleToken k ps t).value = t.value := by
  unfold settleToken
  split <;> rfl

/-- A path that comes again is given the same value again. -/
theorem settleToken_settleToken (k : Settled) (ps qs : List String) (t : Token) :
    settleToken k ps (settleToken k qs t) = settleToken k (qs ++ ps) t := by
  by_cases hps : t.path ∈ ps <;> by_cases hqs : t.path ∈ qs <;>
    cases hv : k.value? t.path <;> simp [settleToken, hps, hqs, hv]

/-- Steps that settle one path each settle all of them in the end. -/
theorem tokens_foldl_settle {f : Store locked → String → Store locked}
    (hf : ∀ s p, (f s p).tokens = s.tokens.map (settleToken k [p])) (ps : List String)
    (s : Store locked) : (ps.foldl f s).tokens = s.tokens.map (settleToken k ps) := by
  induction ps generalizing s with
  | nil =>
    have hid : settleToken k [] = id := by
      funext t
      simp [settleToken]
    rw [List.foldl_nil, hid, List.map_id]
  | cons p ps ih =>
    rw [List.foldl_cons, ih, hf, List.map_map]
    exact List.map_congr_left fun t _ => settleToken_settleToken k ps [p] t

/-- A resolution goes over the tokens in place. -/
theorem tokens_resolve (s : Store locked) :
    s.resolve.1.tokens = s.tokens.map (settleToken s.settled.1 s.resolve.2.resolved) := by
  refine tokens_foldl_settle (fun s' p => ?_) _ s
  split
  next v hv =>
    change s.settled.1.value? p = some v at hv
    rw [tokens_edit]
    refine List.map_congr_left fun t _ => ?_
    by_cases h : t.path = p
    · simp [settleToken, editToken, h, hv]
    · simp [settleToken, editToken, h]
  next hv =>
    change s.settled.1.value? p = none at hv
    have hidle : ∀ t ∈ s'.tokens, settleToken s.settled.1 [p] t = t := by
      intro t _
      by_cases h : t.path = p
      · cases t
        simp_all [settleToken]
      · simp [settleToken, h]
    rw [List.map_congr_left hidle, List.map_id']

/-- Only the resolved values of the settled tokens change, to what their paths come to. -/
theorem forall₂_resolve (s : Store locked) :
    List.Forall₂ (fun t t' => (t.path ∉ s.resolve.2.resolved ∧ t' = t) ∨
      (t.path ∈ s.resolve.2.resolved ∧
        ∃ v, s.ComesTo t.path v ∧ t' = { t with resolved := some v }))
      s.tokens s.resolve.1.tokens := by
  rw [tokens_resolve, List.forall₂_map_right_iff, List.forall₂_same]
  intro t _
  by_cases h : t.path ∈ s.resolve.2.resolved
  · rcases Option.isSome_iff_exists.mp (s.progress_settled.done _ h) with ⟨v, hv⟩
    refine .inr ⟨h, v, s.progress_settled.sound _ v hv, ?_⟩
    simp [settleToken, h, hv]
  · exact .inl ⟨h, by simp [settleToken, h]⟩

/-- Nothing that a resolution reads is changed by it. -/
theorem settled_resolve (s : Store locked) : s.resolve.1.settled = s.settled := by
  have hpaths : s.resolve.1.paths = s.paths := by
    simp [paths, tokens_resolve, Function.comp_def]
  have hcontains : s.resolve.1.contains = s.contains := by
    funext path
    rw [Bool.eq_iff_iff, contains_iff, contains_iff, hpaths]
  have htargets : ∀ k ps (t : Token),
      (settleToken k ps t).targets s.contains = t.targets s.contains := by
    intro k ps t
    simp [Token.targets]
  have hwaiting : s.resolve.1.waiting = s.waiting := by
    simp [waiting, hcontains, tokens_resolve, List.filterMap_map, htargets, Token.raw]
  have hliterals : s.resolve.1.literals = s.literals := by
    simp [literals, hcontains, tokens_resolve, List.filterMap_map, htargets]
  rw [settled, settled, hwaiting, hliterals]

theorem resolve_resolve (s : Store locked) : s.resolve.1.resolve = s.resolve := by
  have hlists : ∀ s : Store locked,
      s.resolve.2 = ⟨s.settled.1.order, s.settled.2.map Waiting.path⟩ := fun _ => rfl
  have hresolution : s.resolve.1.resolve.2 = s.resolve.2 := by
    rw [hlists s.resolve.1, settled_resolve, ← hlists]
  have htokens : s.resolve.1.resolve.1.tokens = s.resolve.1.tokens := by
    rw [tokens_resolve s.resolve.1, settled_resolve, hresolution, tokens_resolve s, List.map_map]
    refine List.map_congr_left fun t _ => (settleToken_settleToken _ _ _ t).trans ?_
    simp [settleToken]
  exact Prod.ext (Store.ext htokens) hresolution

/-- Stores with the same tokens in other orders have the same tokens after a resolution. -/
theorem perm_tokens_resolve {locked' : String → Bool} {s' : Store locked'}
    (hperm : s.tokens.Perm s'.tokens) : s.resolve.1.tokens.Perm s'.resolve.1.tokens := by
  have hsame : ∀ t ∈ s'.tokens, settleToken s.settled.1 s.resolve.2.resolved t =
      settleToken s'.settled.1 s'.resolve.2.resolved t := by
    intro t ht
    have ht' := hperm.mem_iff.mpr ht
    have hresolved : t.path ∈ s.resolve.2.resolved ↔ t.path ∈ s'.resolve.2.resolved := by
      rw [mem_resolved_iff ht', mem_resolved_iff ht, contains_eq_of_perm hperm,
        known_iff_of_perm hperm]
    by_cases h : t.path ∈ s'.resolve.2.resolved
    · rcases Option.isSome_iff_exists.mp (s.progress_settled.done _ (hresolved.mpr h)) with ⟨v, hv⟩
      rcases Option.isSome_iff_exists.mp (s'.progress_settled.done _ h) with ⟨v', hv'⟩
      have hcomes := (s.progress_settled.sound _ v hv).of_perm hperm
      have heq : v = v' := hcomes.unique (s'.progress_settled.sound _ v' hv')
      simp [settleToken, h, hresolved.mpr h, hv, hv', heq]
    · simp [settleToken, h, mt hresolved.mp h]
  rw [tokens_resolve, tokens_resolve, ← List.map_congr_left hsame]
  exact hperm.map _

/-- A resolution is the least fixed point.  Every token with references is listed once, under the
resolved ones exactly if its path is known; nothing changes but the resolved values of these, and
they are what the paths come to.  The order of the tokens makes no difference to any of them, and a
second resolution changes nothing. -/
theorem resolve_least_fixed_point (s : Store locked) :
    (s.resolve.2.resolved ++ s.resolve.2.unresolved).Perm
        ((s.tokens.filter fun t => t.targets s.contains ≠ []).map Token.path) ∧
      (s.resolve.2.resolved ++ s.resolve.2.unresolved).Nodup ∧
      (∀ t ∈ s.tokens, t.targets s.contains ≠ [] →
        (t.path ∈ s.resolve.2.resolved ↔ s.Known t.path) ∧
          (t.path ∈ s.resolve.2.unresolved ↔ ¬ s.Known t.path)) ∧
      List.Forall₂ (fun t t' => (t.path ∉ s.resolve.2.resolved ∧ t' = t) ∨
        (t.path ∈ s.resolve.2.resolved ∧
          ∃ v, s.ComesTo t.path v ∧ t' = { t with resolved := some v }))
        s.tokens s.resolve.1.tokens ∧
      (∀ {locked' : String → Bool} (s' : Store locked'), s'.tokens.Perm s.tokens →
        ∀ path, s'.resolve.1.get? path = s.resolve.1.get? path) ∧
      s.resolve.1.resolve = s.resolve := by
  refine ⟨s.perm_resolve, s.nodup_resolve, fun t ht htargets => ⟨?_, ?_⟩, s.forall₂_resolve,
    fun s' hperm path => get?_eq_of_perm (perm_tokens_resolve hperm) path, s.resolve_resolve⟩
  · simpa [htargets] using mem_resolved_iff ht
  · simpa [htargets] using mem_unresolved_iff ht

/-- A chain of two whole references, a text with a group, and a cycle. -/
def chainAndCycle : SealedStore where
  tokens := [
    { path := "text.action.accent", value := .text "\x7b color.brand \x7d" },
    { path := "border.surface.accent", value := .text "1px solid \x7btext.action.accent\x7d" },
    { path := "color.brand", value := .text "color.blue" },
    { path := "color.blue", value := .color "#3B82F6" },
    { path := "text.base", value := .text "\x7btext.default\x7d" },
    { path := "text.default", value := .text "\x7btext.base\x7d" }]
  distinct := by decide

/-- The same tokens from the last to the first. -/
def cycleAndChain : SealedStore where
  tokens := chainAndCycle.tokens.reverse
  distinct := by decide

/-- In whichever order they come, the text with the group is settled and the cycle is not. -/
theorem resolve_least_fixed_point_chainAndCycle :
    cycleAndChain.tokens.Perm chainAndCycle.tokens ∧
      "border.surface.accent" ∈ chainAndCycle.resolve.2.resolved ∧
      "text.base" ∈ chainAndCycle.resolve.2.unresolved ∧
      ∀ path, cycleAndChain.resolve.1.get? path = chainAndCycle.resolve.1.get? path := by
  have hperm : cycleAndChain.tokens.Perm chainAndCycle.tokens := List.reverse_perm _
  rcases resolve_least_fixed_point chainAndCycle with ⟨_, _, hlisted, _, horder, _⟩
  have hblue : chainAndCycle.Known "color.blue" :=
    .independent (t := chainAndCycle.tokens[3]) (List.getElem_mem _) (by decide)
  have hbrand : chainAndCycle.Known "color.brand" :=
    .whole (t := chainAndCycle.tokens[2]) (List.getElem_mem _) (by decide) hblue
  have haccent : chainAndCycle.Known "text.action.accent" :=
    .whole (t := chainAndCycle.tokens[0]) (List.getElem_mem _) (by decide) hbrand
  have hborder : chainAndCycle.Known "border.surface.accent" := by
    have hbodies : Reference.bodies chainAndCycle.tokens[1].raw = ["text.action.accent"] := by
      decide
    refine .filled (t := chainAndCycle.tokens[1]) (List.getElem_mem _) (by decide) fun p hp => ?_
    rw [hbodies] at hp
    rw [List.mem_singleton.mp hp]
    exact haccent
  -- A known path on the cycle would need the other one to be known first.
  have hcycle : ∀ p, chainAndCycle.Known p → p ≠ "text.base" ∧ p ≠ "text.default" := by
    have hends : ∀ t ∈ chainAndCycle.tokens,
        (t.path = "text.base" → t.dependence chainAndCycle.contains = .whole "text.default") ∧
        (t.path = "text.default" → t.dependence chainAndCycle.contains = .whole "text.base") := by
      decide
    intro p hp
    induction hp with
    | independent ht hform => simpa [hform] using hends _ ht
    | filled ht hform => simpa [hform] using hends _ ht
    | whole ht hform _ ih =>
      rcases hends _ ht with ⟨hbase, hdefault⟩
      refine ⟨fun hpath => ?_, fun hpath => ?_⟩
      · rw [hbase hpath] at hform
        cases hform
        exact ih.2 rfl
      · rw [hdefault hpath] at hform
        cases hform
        exact ih.1 rfl
  refine ⟨hperm, ?_, ?_, horder cycleAndChain hperm⟩
  · exact (hlisted chainAndCycle.tokens[1] (List.getElem_mem _) (by decide)).1.mpr hborder
  · refine (hlisted chainAndCycle.tokens[4] (List.getElem_mem _) (by decide)).2.mpr fun h => ?_
    exact (hcycle _ h).1 rfl

end Store
end DesignTokens
