import DesignTokens.Proofs.Store.Needs

/-!
# Following references one by one

`Store.valueAt?` follows whole references from token to token, and `Store.resolve` settles all
tokens at once.  In a store without resolved values both walk along the same chains:
`Store.EndsAfter` says that a chain of so many whole references leads from a path to a token that
refers to nothing.  Following finds the value at the end of a chain of fewer than 32 references and
nothing else, and whatever it finds is what the resolution settles.
-/

namespace DesignTokens

namespace Reference

/-- A blank group has blanks inside, so it is no path by itself. -/
theorem hasBlank_trim_of_pure?_empty {text : String} (h : pure? text = some "") :
    Text.hasBlank (Text.trim text) = true := by
  unfold pure? at h
  split at h
  · next body hpieces =>
    have hbody : IsBody body := isBody_of_mem_piecesFrom (hpieces ▸ List.mem_singleton_self _)
    have hnil : Text.trimChars body = [] := by
      simpa using congrArg String.toList (Option.some.inj h)
    obtain ⟨c, hc⟩ := List.exists_mem_of_ne_nil _ hbody.1
    -- A character that is no blank would be left over.
    have hblank : Text.isBlank c = true := by
      by_contra hnot
      have hleft := Text.mem_trimChars hc (by simpa using hnot)
      rw [hnil] at hleft
      cases hleft
    have htext : c ∈ (Text.trim text).toList := by
      rw [← joined_pieces (Text.trim text), hpieces]
      simp [joined, Piece.chars, hc]
    exact List.any_eq_true.mpr ⟨c, htext, hblank⟩
  · cases h

end Reference

namespace Store

variable {locked : String → Bool} {s : Store locked} {t u : Token} {p target : String} {v : Value}
  {links : Nat}

/-! ## One link -/

/-- A text that is a blank group has no targets. -/
theorem pure?_ne_empty_of_targets {y : String} {known : String → Bool}
    (hy : t.value.text? = some y) (hsome : t.targets known ≠ []) :
    Reference.pure? y ≠ some "" := by
  intro hpure
  rcases List.exists_mem_of_ne_nil _ hsome with ⟨q, hq⟩
  rcases Token.mem_targets.mp hq with ⟨z, hz, hcase⟩
  obtain rfl : z = y := Option.some.inj (hz.symm.trans hy)
  have hnone : Reference.embedded z = [] := by simpa using Reference.embedded_of_pure? hpure
  rcases hcase with hmem | ⟨_, rfl, _, _, hblank, _⟩
  · rw [hnone] at hmem
    cases hmem
  · rw [Reference.hasBlank_trim_of_pure?_empty hpure] at hblank
    cases hblank

/-- The next token of a chain is the target of a whole reference. -/
theorem nextLink?_eq_some_iff {y : String} {known : String → Bool} (hy : t.value.text? = some y)
    (hsome : t.targets known ≠ []) :
    nextLink? y (t.targets known) = some target ↔ t.dependence known = .whole target := by
  have hraw : t.raw = y := Value.render_of_text? hy
  have hnonblank := pure?_ne_empty_of_targets hy hsome
  constructor
  · intro h
    unfold nextLink? at h
    split at h
    · next found _ hpure =>
      cases h
      refine Token.dependence_of_pure hy hpure ?_
      rintro rfl
      exact hnonblank hpure
    · next found _ hone =>
      split at h
      · next hbare =>
        cases h
        rw [Token.dependence_eq_whole_iff]
        refine ⟨hone, ?_⟩
        rw [hraw, Reference.isWhole, hbare, beq_self_eq_true, Bool.or_true]
      · cases h
    · cases h
  · intro h
    have hone := (Token.dependence_eq_whole_iff.mp h).1
    rcases Token.text_of_whole h with ⟨z, hz, hshape⟩
    obtain rfl : z = y := Option.some.inj (hz.symm.trans hy)
    rw [hone]
    unfold nextLink?
    rcases hshape with ⟨hnone, hbare⟩ | ⟨_, hpure⟩
    · cases hpure : Reference.pure? z with
      | none => exact if_pos hbare
      | some q =>
        -- Without references between braces the text could only be a blank group.
        have hembedded := Reference.embedded_of_pure? hpure
        rw [hnone] at hembedded
        split at hembedded
        · next hq => exact absurd (hq ▸ hpure) hnonblank
        · cases hembedded
    · rw [hpure]

/-- One link of a chain: a token that refers to nothing is its end, a whole reference leads on, and
any other text ends in nothing. -/
theorem follow?_succ (hfresh : t.resolved = none) : s.follow? (links + 1) t =
    match t.dependence s.contains with
    | .independent => some t.value
    | .whole target => (s.get? target).bind (s.follow? links)
    | .filled => none := by
  have hnumeric : t.value.text? = none → t.dependence s.contains = .independent := fun htext =>
    Token.dependence_eq_independent_iff.mpr (by simp [Token.targets, htext])
  conv_lhs => unfold follow?
  rw [hfresh]
  cases htext : t.value.text? with
  | none => simp [hnumeric htext]
  | some y =>
    dsimp only
    cases hform : t.dependence s.contains with
    | independent => rw [Token.dependence_eq_independent_iff.mp hform]
    | whole target =>
      have hone := (Token.dependence_eq_whole_iff.mp hform).1
      have hnext := (nextLink?_eq_some_iff htext (by simp [hone])).mpr hform
      rw [hone] at hnext ⊢
      simp only [hnext, Option.bind_some]
      cases s.get? target <;> rfl
    | filled =>
      have hsome : t.targets s.contains ≠ [] := by
        intro hnone
        rw [Token.dependence_eq_independent_iff.mpr hnone] at hform
        cases hform
      have hstuck : nextLink? y (t.targets s.contains) = none := by
        refine Option.eq_none_iff_forall_ne_some.mpr fun target hnext => ?_
        rw [(nextLink?_eq_some_iff htext hsome).mp hnext] at hform
        cases hform
      cases htargets : t.targets s.contains with
      | nil => exact absurd htargets hsome
      | cons q more =>
        rw [htargets] at hstuck
        simp [hstuck]

/-! ## Chains -/

/-- A chain of whole references, of a given length, leads from a path to a token that refers to
nothing. -/
inductive EndsAfter (s : Store locked) : Nat → String → Token → Prop
  | here {t : Token} (ht : t ∈ s.tokens) (hform : t.dependence s.contains = .independent) :
      s.EndsAfter 0 t.path t
  | link {n : Nat} {t u : Token} {target : String} (ht : t ∈ s.tokens)
      (hform : t.dependence s.contains = .whole target) (hrest : s.EndsAfter n target u) :
      s.EndsAfter (n + 1) t.path u

theorem EndsAfter.comesTo {n : Nat} (h : s.EndsAfter n p u) : s.ComesTo p u.value := by
  induction h with
  | here ht hform => exact .independent ht hform
  | link ht hform _ ih => exact .whole ht hform ih

theorem EndsAfter.mem_paths {n : Nat} (h : s.EndsAfter n p u) : p ∈ s.paths := by
  cases h with
  | here ht _ => exact path_mem_paths ht
  | link ht _ _ => exact path_mem_paths ht

section

variable (hfresh : ∀ t ∈ s.tokens, t.resolved = none)
include hfresh

/-- Following a token finds the end of a chain that has fewer links than may be followed. -/
theorem follow?_eq_some_iff (ht : t ∈ s.tokens) :
    s.follow? links t = some v ↔ ∃ n u, n < links ∧ s.EndsAfter n t.path u ∧ u.value = v := by
  induction links generalizing t with
  | zero => simp [follow?]
  | succ links ih =>
    rw [follow?_succ (hfresh t ht)]
    constructor
    · intro h
      split at h
      · next hform => exact ⟨0, t, Nat.succ_pos links, .here ht hform, Option.some.inj h⟩
      · next target hform =>
        rcases Option.bind_eq_some_iff.mp h with ⟨next, hnext, hvalue⟩
        rcases get?_eq_some_iff.mp hnext with ⟨hmem, rfl⟩
        rcases (ih hmem).mp hvalue with ⟨n, u, hn, hchain, hu⟩
        exact ⟨n + 1, u, Nat.succ_lt_succ hn, .link ht hform hchain, hu⟩
      · cases h
    · rintro ⟨n, u, hn, hchain, rfl⟩
      generalize hpath : t.path = p at hchain
      cases hchain with
      | here hu hform => rw [eq_of_path_eq ht hu hpath, hform]
      | @link n w _ target hw hform hrest =>
        rw [eq_of_path_eq ht hw hpath, hform]
        rcases mem_paths.mp hrest.mem_paths with ⟨next, hmem, rfl⟩
        dsimp only
        rw [get?_eq_some_iff.mpr ⟨hmem, rfl⟩, Option.bind_some]
        exact (ih hmem).mpr ⟨n, u, Nat.lt_of_succ_lt_succ hn, hrest, rfl⟩

theorem valueAt?_eq_some_iff :
    s.valueAt? p = some v ↔ ∃ n u, n < 32 ∧ s.EndsAfter n p u ∧ u.value = v := by
  rw [valueAt?, Option.bind_eq_some_iff]
  constructor
  · rintro ⟨t, ht, hvalue⟩
    rcases get?_eq_some_iff.mp ht with ⟨hmem, rfl⟩
    exact (follow?_eq_some_iff hfresh hmem).mp hvalue
  · rintro ⟨n, u, hn, hchain, hu⟩
    rcases mem_paths.mp hchain.mem_paths with ⟨t, hmem, rfl⟩
    exact ⟨t, get?_eq_some_iff.mpr ⟨hmem, rfl⟩,
      (follow?_eq_some_iff hfresh hmem).mpr ⟨n, u, hn, hchain, hu⟩⟩

end

/-! ## Both ways of resolving -/

/-- A token with references whose path comes to a value gets that value. -/
theorem ComesTo.get?_resolve (ht : t ∈ s.tokens) (htargets : t.targets s.contains ≠ [])
    (h : s.ComesTo t.path v) : t.path ∈ s.resolve.2.resolved ∧
      s.resolve.1.get? t.path = some { t with resolved := some v } := by
  have hresolved := (mem_resolved_iff ht).mpr ⟨htargets, h.known⟩
  have hvalue : s.settled.1.value? t.path = some v := computed?_eq_some_iff.mpr h
  refine ⟨hresolved, get?_eq_some_iff.mpr ⟨?_, rfl⟩⟩
  rw [tokens_resolve]
  exact List.mem_map.mpr ⟨t, ht, by simp [settleToken, hresolved, hvalue]⟩

/-- In a store without resolved values, following references from a path finds a value exactly if a
chain of fewer than 32 whole references leads to a token with that value that refers to nothing.
Whatever it finds for a token with references, the resolution lists the token as resolved and
writes the same value. -/
theorem following_agrees_with_settling (hfresh : ∀ t ∈ s.tokens, t.resolved = none) :
    (∀ p v, s.valueAt? p = some v ↔ ∃ n u, n < 32 ∧ s.EndsAfter n p u ∧ u.value = v) ∧
      ∀ t ∈ s.tokens, t.targets s.contains ≠ [] → ∀ v, s.valueAt? t.path = some v →
        t.path ∈ s.resolve.2.resolved ∧
          s.resolve.1.get? t.path = some { t with resolved := some v } := by
  refine ⟨fun p v => valueAt?_eq_some_iff hfresh, fun t ht htargets v hv => ?_⟩
  rcases (valueAt?_eq_some_iff hfresh).mp hv with ⟨n, u, _, hchain, rfl⟩
  exact hchain.comesTo.get?_resolve ht htargets

/-- Paths of one character each, from `A` on. -/
def letter (n : Nat) : String := String.singleton (Char.ofNat ('A'.toNat + n))

/-- A chain of 32 references, by turns between braces and bare. -/
def longChain : SealedStore where
  tokens :=
    (List.range 32).map (fun n =>
      { path := letter n
        value := .text
          (if n % 2 = 0 then "\x7b " ++ letter (n + 1) ++ " \x7d" else letter (n + 1)) }) ++
      [{ path := letter 32, value := .color "#3B82F6" }]
  distinct := by decide +kernel

/-- From the first token there is one link too many.  From the second one the colour is found, and
the resolution writes it there. -/
theorem following_agrees_with_settling_longChain :
    (∀ t ∈ longChain.tokens, t.resolved = none) ∧
      longChain.valueAt? (letter 0) = none ∧
      (∀ n u, longChain.EndsAfter n (letter 0) u → 32 ≤ n) ∧
      longChain.valueAt? (letter 1) = some (.color "#3B82F6") ∧
      letter 1 ∈ longChain.resolve.2.resolved ∧
      (longChain.resolve.1.get? (letter 1)).bind Token.resolved = some (.color "#3B82F6") := by
  have hfresh : ∀ t ∈ longChain.tokens, t.resolved = none := by decide +kernel
  have hfirst : longChain.valueAt? (letter 0) = none := by decide +kernel
  have hsecond : longChain.valueAt? (letter 1) = some (.color "#3B82F6") := by decide +kernel
  obtain ⟨hchains, hsettled⟩ := following_agrees_with_settling hfresh
  let t : Token := longChain.tokens.get ⟨1, by decide⟩
  have ht : t ∈ longChain.tokens := List.getElem_mem _
  have htargets : t.targets longChain.contains ≠ [] := by decide +kernel
  obtain ⟨hresolved, hget⟩ := hsettled t ht htargets _ hsecond
  refine ⟨hfresh, hfirst, fun n u hchain => ?_, hsecond, hresolved, ?_⟩
  · by_contra hfew
    have hfound := (hchains _ _).mpr ⟨n, u, Nat.lt_of_not_le hfew, hchain, rfl⟩
    rw [hfirst] at hfound
    cases hfound
  · have hpath : t.path = letter 1 := rfl
    rw [← hpath, hget, Option.bind_some]

end Store

end DesignTokens
